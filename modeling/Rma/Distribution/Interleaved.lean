import Rma.Base.Chunks
import Rma.Distribution.Apma

/-!
# The interleaved workload

The constructor of the interleaved distribution inverts a random permutation of the slots, and
gives the slots their sequences in the order of the inverse. With more than `2 ^ 31` slots a
position does not fit in the `int` of the array, and the write that it leads to is outside of the
slots.
-/

namespace Rma

open Base RandomPermutation

namespace Distribution.InterleavedDistribution

/-! ## The inverse -/

section Inverse

variable {rp : CByteArray} {π : List Nat}

/-- The position of each of the values is stored. -/
theorem invert_spec (read : ∀ i, getRawKey rp i = π[i]?) (nodup : π.Nodup) (room i : Nat)
    (within : i + room ≤ π.length) {P : List Int} (inside : ∀ s ∈ π, s < P.length) :
    ∃ P', invert rp room i P = some P' ∧ P'.length = P.length ∧
      (∀ j s, i ≤ j → j < i + room → π[j]? = some s → P'[s]? = some (toInt j)) ∧
      ∀ s, (∀ j, i ≤ j → π[j]? ≠ some s) → P'[s]? = P[s]? := by
  induction room generalizing i P with
  | zero => exact ⟨P, rfl, rfl, fun j s lower upper => by omega, fun _ _ => rfl⟩
  | succ room ih =>
      obtain ⟨s, found⟩ : ∃ s, π[i]? = some s := ⟨_, List.getElem?_eq_getElem (by omega)⟩
      have less := inside s (List.mem_of_getElem? found)
      obtain ⟨P', rest, length, here, others⟩ := @ih (i + 1) (by omega) (P.set s (toInt i))
        (fun t member => by rw [List.length_set]; exact inside t member)
      refine ⟨P', ?_, by rw [length, List.length_set], fun j t lower upper read' => ?_,
        fun t absent => ?_⟩
      · rw [invert, read, found, Option.bind_eq_bind, Option.bind_some, if_pos less]
        exact rest
      · rcases Nat.eq_or_lt_of_le lower with rfl | later
        · obtain rfl : s = t := Option.some.inj (found.symm.trans read')
          rw [others s fun j later found' => ?_, List.getElem?_set_self less]
          have same := (List.getElem?_inj (by omega) nodup).mp (found.trans found'.symm)
          omega
        · exact here j t later (by omega) read'
      · rw [others t fun j later => absent j (by omega), List.getElem?_set_ne]
        exact fun same => absent i le_rfl (same ▸ found)

/-- The inverse of the random permutation. -/
theorem invert_all {m : Nat} (read : ∀ i, getRawKey rp i = π[i]?) (perm : π.Perm (List.range m))
    (unset : Int) : ∃ P, invert rp m 0 (List.replicate m unset) = some P ∧ P.length = m ∧
      ∀ (j s : Nat), π[j]? = some s → P[s]? = some (toInt j) := by
  have length := perm.length_eq
  rw [List.length_range] at length
  obtain ⟨P, inverse, lengthP, here, -⟩ := invert_spec read (perm.nodup_iff.mpr List.nodup_range)
    m 0 (by omega) (P := List.replicate m unset) (fun s member => by
      rw [List.length_replicate]
      exact List.mem_range.mp (perm.mem_iff.mp member))
  refine ⟨P, inverse, by rw [lengthP, List.length_replicate], fun j s found => ?_⟩
  have inside := (List.getElem?_eq_some_iff.mp found).1
  exact here j s (Nat.zero_le j) (by omega) found

/-- Positions that fit are a permutation. -/
theorem invert_perm {m : Nat} (fits : m ≤ 2 ^ 31) (perm : π.Perm (List.range m)) {P : List Int}
    (length : P.length = m) (inverse : ∀ (j s : Nat), π[j]? = some s → P[s]? = some (toInt j)) :
    ∃ ρ : List Nat, P = ρ.map Nat.cast ∧ ρ.Perm (List.range m) := by
  have lengthπ := perm.length_eq
  rw [List.length_range] at lengthπ
  have position : ∀ s < m, ∃ j < m, π[j]? = some s ∧ P[s]? = some (j : Int) := by
    intro s less
    obtain ⟨j, found⟩ := List.mem_iff_getElem?.mp (perm.mem_iff.mpr (List.mem_range.mpr less))
    have inside := (List.getElem?_eq_some_iff.mp found).1
    refine ⟨j, by omega, found, ?_⟩
    rw [inverse j s found, toInt_of_lt (Int.natCast_nonneg j) (by omega)]
  choose! f less found value using position
  have eq : P = ((List.range m).map f).map Nat.cast := by
    refine List.ext_getElem? fun s => ?_
    by_cases inside : s < m
    · rw [value s inside, List.map_map, List.getElem?_map, List.getElem?_range inside]
      rfl
    · rw [List.getElem?_eq_none (by omega), List.getElem?_eq_none]
      rw [List.length_map, List.length_map, List.length_range]
      omega
  have nodup : ((List.range m).map f).Nodup :=
    List.Nodup.map_on (fun s memberS t memberT same => by
      have readS := found s (List.mem_range.mp memberS)
      rw [same, found t (List.mem_range.mp memberT)] at readS
      exact (Option.some.inj readS).symm) List.nodup_range
  have subset : (List.range m).map f ⊆ List.range m := by
    intro j member
    obtain ⟨s, below, rfl⟩ := List.mem_map.mp member
    exact List.mem_range.mpr (less s (List.mem_range.mp below))
  exact ⟨_, eq, (nodup.subperm subset).perm_of_length_le (by rw [List.length_map])⟩

end Inverse

/-! ## The slots -/

section Slots

variable {direction : Direction} {keysPerSlot leftoverIndex n : Nat}
  {slots : List (Option Sequential)}

/-- The number of keys in the slots before. -/
def startOf (keysPerSlot leftoverIndex : Nat) (ρ : List Nat) : Nat :=
  (ρ.map (chunkSize keysPerSlot leftoverIndex)).sum

theorem startOf_append (ρ τ : List Nat) : startOf keysPerSlot leftoverIndex (ρ ++ τ) =
    startOf keysPerSlot leftoverIndex ρ + startOf keysPerSlot leftoverIndex τ := by
  rw [startOf, List.map_append, List.sum_append, ← startOf, ← startOf]

theorem startOf_singleton (j : Nat) :
    startOf keysPerSlot leftoverIndex [j] = chunkSize keysPerSlot leftoverIndex j :=
  List.sum_singleton

/-- The slots are set in the order of the permutation, one after the other. -/
theorem fillSlots_spec (direction : Direction) (keysPerSlot leftoverIndex : Nat)
    (small : n < 2 ^ 63) {ρ : List Nat} (nodup : ρ.Nodup) (start : Nat)
    (slots : List (Option Sequential))
    (inside : ∀ j ∈ ρ, j < slots.length) (few : slots.length < 2 ^ 63)
    (fits : start + startOf keysPerSlot leftoverIndex ρ ≤ n) :
    ∃ slots', fillSlots direction keysPerSlot leftoverIndex (ρ.map Nat.cast) start slots =
        some slots' ∧ slots'.length = slots.length ∧
      (∀ q j : Nat, ρ[q]? = some j → slots'[j]? = some (some ⟨direction,
        (start + startOf keysPerSlot leftoverIndex (ρ.take q) : Nat),
        (start + startOf keysPerSlot leftoverIndex (ρ.take q) +
          chunkSize keysPerSlot leftoverIndex j : Nat)⟩)) ∧
      ∀ j ∉ ρ, slots'[j]? = slots[j]? := by
  induction ρ generalizing start slots with
  | nil => exact ⟨slots, rfl, rfl, fun q j read => by simp at read, fun _ _ => rfl⟩
  | cons i ρ ih =>
      obtain ⟨fresh, nodup⟩ := List.nodup_cons.mp nodup
      have less := inside i List.mem_cons_self
      rw [startOf, List.map_cons, List.sum_cons, ← startOf] at fits
      have set := @setSlot_eq direction slots i start (chunkSize keysPerSlot leftoverIndex i) less
        (by omega)
      obtain ⟨slots', rest, length, here, others⟩ := ih nodup
        (start + chunkSize keysPerSlot leftoverIndex i)
        (slots.set i (some ⟨direction, start,
          (start + chunkSize keysPerSlot leftoverIndex i : Nat)⟩))
        (fun j member => by
          rw [List.length_set]
          exact inside j (List.mem_cons_of_mem _ member))
        (by rwa [List.length_set]) (by omega)
      refine ⟨slots', ?_, by rw [length, List.length_set], fun q j read => ?_, fun j absent => ?_⟩
      · rw [List.map_cons, fillSlots, sizeT_of_lt (by omega), ← chunkSize, set, Option.bind_eq_bind,
        Option.bind_some]
        exact rest
      · cases q with
        | zero =>
            obtain rfl : i = j := Option.some.inj read
            rw [others i fresh, List.getElem?_set_self less]
            rfl
        | succ q =>
            rw [here q j read, List.take_succ_cons, startOf, startOf, List.map_cons,
              List.sum_cons, Nat.add_assoc start]
      · rw [List.mem_cons, not_or] at absent
        rw [others j absent.2, List.getElem?_set_ne (Ne.symm absent.1)]

/-- A position that is outside of the slots leads to a write outside of them. -/
theorem fillSlots_eq_none (direction : Direction) (keysPerSlot leftoverIndex : Nat)
    (slots : List (Option Sequential)) {P : List Int} {x : Int} (member : x ∈ P)
    (outside : slots.length ≤ sizeT x) (start : Nat) :
    fillSlots direction keysPerSlot leftoverIndex P start slots = none := by
  induction P generalizing start slots with
  | nil => cases member
  | cons y P ih =>
      rw [fillSlots]
      refine Option.bind_eq_none_iff.mpr fun slots' set => ?_
      obtain ⟨inside, length⟩ := setSlot_some set
      rcases List.mem_cons.mp member with rfl | later
      · omega
      · exact ih slots' later (by rwa [length]) _

/-! ## The distribution -/

/-- The slots do not overlap. -/
theorem tiled_of_slots {ρ : List Nat} (perm : ρ.Perm (List.range slots.length))
    (sum : startOf keysPerSlot leftoverIndex ρ = n)
    (set : ∀ q j : Nat, ρ[q]? = some j → slots[j]? = some (some ⟨direction,
      (startOf keysPerSlot leftoverIndex (ρ.take q) : Nat),
      (startOf keysPerSlot leftoverIndex (ρ.take q) +
        chunkSize keysPerSlot leftoverIndex j : Nat)⟩)) :
    Tiled direction n slots (fun j => startOf keysPerSlot leftoverIndex (ρ.take (ρ.idxOf j)))
      (chunkSize keysPerSlot leftoverIndex) := by
  have position : ∀ j < slots.length, ρ[ρ.idxOf j]? = some j := fun j inside =>
    List.getElem?_idxOf (perm.mem_iff.mpr (List.mem_range.mpr inside))
  -- the slots before a position end where it starts
  have before : ∀ q r j : Nat, ρ[q]? = some j → q < r →
      startOf keysPerSlot leftoverIndex (ρ.take q) + chunkSize keysPerSlot leftoverIndex j ≤
        startOf keysPerSlot leftoverIndex (ρ.take r) := by
    intro q r j read less
    have grow := monotone_nat_of_le_succ
      (f := fun r => startOf keysPerSlot leftoverIndex (ρ.take r)) fun r => by
        rw [List.take_add_one, startOf_append]
        exact Nat.le_add_right _ _
    have here : ρ.take (q + 1) = ρ.take q ++ [j] := by
      rw [List.take_add_one, read]
      rfl
    rw [← startOf_singleton, ← startOf_append, ← here]
    exact grow less
  constructor
  · exact fun j inside => set _ j (position j inside)
  · intro j inside
    have bound := before _ ρ.length j (position j inside)
      (List.idxOf_lt_length_of_mem (perm.mem_iff.mpr (List.mem_range.mpr inside)))
    rwa [List.take_length, sum] at bound
  · intro j insideJ k insideK other
    rcases Nat.lt_trichotomy (ρ.idxOf j) (ρ.idxOf k) with less | same | greater
    · exact Or.inl (before _ _ j (position j insideJ) less)
    · exact absurd (Option.some.inj ((position j insideJ).symm.trans
        (same ▸ position k insideK))) other
    · exact Or.inr (before _ _ k (position k insideK) greater)

/-- An interleaved distribution of at most `2 ^ 31` slots is a permutation, and every key is in its
slot. -/
theorem create_spec {size numStreams noBuckets : Nat} {o : Outcome} (small : size < 2 ^ 63)
    (least : 0 < numStreams) (most : numStreams ≤ size) (fits : numStreams ≤ 2 ^ 31)
    (several : 0 < noBuckets) (drawn : o.Drawn numStreams noBuckets) (unset : Int) :
    ∃ b, create direction size numStreams noBuckets o unset = some b ∧
      Permutes size b.size b.key ∧
      ∀ i < size, ∃ slot, b.slots[i % b.slots.length]? = some (some slot) ∧
        i / b.slots.length < slot.size := by
  obtain ⟨rp, π, run, -, -, read, perm⟩ := rawKeys least (by omega) several drawn
  obtain ⟨P, inverted, length, inverse⟩ := invert_all read perm unset
  obtain ⟨ρ, rfl, permρ⟩ := invert_perm fits perm length inverse
  have total : startOf (size / numStreams) (size % numStreams) ρ = size := by
    rw [startOf, (permρ.map _).sum_eq, Chunked.sum_sizes, chunkStart_even size numStreams least]
  obtain ⟨slots, filled, lengthSlots, set, -⟩ := fillSlots_spec direction
    (size / numStreams) (size % numStreams) small (permρ.nodup_iff.mpr List.nodup_range) 0
    (List.replicate numStreams none) (fun j member => by
      rw [List.length_replicate]
      exact List.mem_range.mp (permρ.mem_iff.mp member))
    (by rw [List.length_replicate]; omega) (by rw [total, Nat.zero_add])
  rw [List.length_replicate] at lengthSlots
  simp only [Nat.zero_add] at set
  have tiled := tiled_of_slots (n := size) (by rwa [lengthSlots]) total set
  have inside : ∀ i < size, i % slots.length < slots.length ∧ i / slots.length <
      chunkSize (size / numStreams) (size % numStreams) (i % slots.length) := by
    intro i below
    rw [lengthSlots]
    have quotient : i / numStreams ≤ size / numStreams := Nat.div_le_div_right below.le
    have splitI := Nat.div_add_mod i numStreams
    have split := Nat.div_add_mod size numStreams
    refine ⟨Nat.mod_lt i least, ?_⟩
    rw [chunkSize]
    split_ifs with early
    · omega
    · rcases Nat.eq_or_lt_of_le quotient with same | less
      · rw [same] at splitI
        omega
      · omega
  refine ⟨⟨slots, size, 0, size⟩, ?_, ?_, fun i below => ?_⟩
  · rw [create, if_neg (by omega), if_neg (by omega)]
    dsimp only
    rw [run, Option.bind_eq_bind, Option.bind_some, inverted, Option.bind_eq_bind,
      Option.bind_some, filled]
    rfl
  · rw [show (InterleavedDistribution.mk slots size 0 size).size = size from sizeT_sub_zero small]
    refine tiled.permutes small inside (fun i j base offset => ?_) fun i below => ?_
    · rw [← Nat.div_add_mod i slots.length, base, offset, Nat.div_add_mod]
    · rw [InterleavedDistribution.key]
      dsimp only
      rw [sizeT_add_zero (by omega)]
  · exact tiled.exists_slot small (inside i below).1 (inside i below).2

/-- With more than `2 ^ 31` slots a slot outside of the array is written. -/
theorem create_eq_none {size numStreams noBuckets : Nat} {o : Outcome} (small : size < 2 ^ 63)
    (most : numStreams ≤ size) (overflow : 2 ^ 31 < numStreams) (several : 0 < noBuckets)
    (drawn : o.Drawn numStreams noBuckets) (unset : Int) :
    create direction size numStreams noBuckets o unset = none := by
  obtain ⟨rp, π, run, -, -, read, perm⟩ := rawKeys (by omega) (by omega) several drawn
  obtain ⟨P, inverted, length, inverse⟩ := invert_all read perm unset
  have lengthπ := perm.length_eq
  rw [List.length_range] at lengthπ
  obtain ⟨s, found⟩ : ∃ s, π[2 ^ 31]? = some s := ⟨_, List.getElem?_eq_getElem (by omega)⟩
  have stored := inverse _ s found
  have outside : sizeT (toInt ((2 ^ 31 : Nat) : Int)) = 2 ^ 64 - 2 ^ 31 := by decide +kernel
  have nothing := fillSlots_eq_none direction (size / numStreams) (size % numStreams)
    (List.replicate numStreams none)
    (List.mem_of_getElem? stored) (by rw [outside, List.length_replicate]; omega) 0
  rw [create, if_neg (by omega), if_neg (by omega)]
  dsimp only
  rw [run, Option.bind_eq_bind, Option.bind_some, inverted, Option.bind_eq_bind,
    Option.bind_some, nothing]
  rfl

end Slots

end Distribution.InterleavedDistribution

end Rma
