import Rma.RewiredMemory

/-!
# System calls that fail

A call of `swap` or `extend` may raise at any of its system calls, and its caller goes
on with the state that it left. `Describes` says that the translation map is a
bijection and agrees with the page table, and that the file holds the extents. Two calls
break it: a swap whose second `mmap` fails after the first one has taken effect, and an
extension whose size wraps around, which truncates the file or adds extents that it does
not hold. They are `Torn`. A run keeps everything exactly when it has no torn call.
-/

namespace Rma

open Base

namespace RewiredMemory

variable {α : Type}

/-- A call of one of the two methods that rewire, with what its system calls do. -/
inductive Call (α : Type) where
  | swap (addr1 addr2 : Nat) (mmap1 mmap2 : Bool)
  | extend (numExtents : UInt64) (growth : Growth α)

def Call.method : Call α → RewiredM α Unit
  | .swap addr1 addr2 mmap1 mmap2 => RewiredMemory.swap addr1 addr2 mmap1 mmap2
  | .extend numExtents growth => RewiredMemory.extend numExtents.toNat growth

/-- The state after a call, whether it raised or not. -/
def after (m : RewiredMemory α) (c : Call α) : RewiredMemory α :=
  match c.method m with
  | .ok _ m' => m'
  | .error _ m' => m'

/-- The call raises an exception. -/
def Raises (m : RewiredMemory α) (c : Call α) : Prop :=
  match c.method m with
  | .ok _ _ => False
  | .error _ _ => True

/-- The translation map is a bijection between the allocated extents, and says where
each of them is mapped; they are within the file. -/
structure Describes (m : RewiredMemory α) : Prop where
  perm : m.translationMap.Perm (List.range m.getAllocatedExtents)
  mapping_eq : ∀ i (h : i < m.translationMap.length), m.mapping i = m.translationMap[i]
  backed : m.getExtentSize * m.getAllocatedExtents ≤ m.fileSize

theorem WF.describes {m : RewiredMemory α} (wf : m.WF) : m.Describes :=
  ⟨wf.perm, wf.mapping_eq, wf.size_le⟩

/-- An address that `validateAddress` accepts. -/
def ValidAddress (m : RewiredMemory α) (address : Nat) : Prop :=
  (address + 2 ^ 64 - m.startAddress) % 2 ^ 64 % m.getExtentSize = 0 ∧
    m.startAddress ≤ address ∧ address < m.startAddress + m.getAllocatedMemorySize

instance (m : RewiredMemory α) : DecidablePred m.ValidAddress := fun _ =>
  inferInstanceAs (Decidable (_ ∧ _ ∧ _))

/-- The swap of two extents is left half done: the first `mmap` succeeds and the
second one fails. Or the bytes of an extension wrap around to a size that is set, and then
entries are added to the map, or the file has become too short. -/
def Torn (m : RewiredMemory α) : Call α → Prop
  | .swap addr1 addr2 mmap1 mmap2 => m.ValidAddress addr1 ∧ m.ValidAddress addr2 ∧
      addr1 ≠ addr2 ∧ mmap1 = true ∧ mmap2 = false
  | .extend numExtents growth => numExtents.toNat ≠ 0 ∧ ¬m.Fits numExtents.toNat ∧
      m.memoryInBytes numExtents.toNat ≤ m.maxMemory ∧ growth.ftruncate = true ∧
      (m.Reserves numExtents.toNat growth ∨
        m.memoryInBytes numExtents.toNat < m.getAllocatedMemorySize)

instance (m : RewiredMemory α) : DecidablePred m.Torn
  | .swap _ _ _ _ => inferInstanceAs (Decidable (_ ∧ _ ∧ _ ∧ _ ∧ _))
  | .extend _ _ => inferInstanceAs (Decidable (_ ∧ _ ∧ _ ∧ _ ∧ _))

/-- The file has the size of an extension, and some entries are added to the map. -/
def grown (m : RewiredMemory α) (numExtents : Nat) (growth : Growth α) (pushed : Nat) :
    RewiredMemory α :=
  { m.truncate (m.memoryInBytes numExtents) growth.content with
    translationMap :=
      m.translationMap ++ (List.range pushed).map (m.translationMap.length + ·) }

/-! ## What a call that raises leaves -/

section Raising

variable {m : RewiredMemory α} {address addr1 addr2 : Nat} {mmap1 mmap2 : Bool}
  {growth : Growth α}

theorem validateAddress_of_valid (valid : m.ValidAddress address) :
    validateAddress address m = .ok () m := by
  rcases valid with ⟨aligned, lower, upper⟩
  rw [validateAddress, bind_get,
    bind_of_ok (raiseIf_of_neg (not_not.mpr aligned))]
  exact raiseIf_of_neg (by omega)

theorem validateAddress_of_invalid (invalid : ¬m.ValidAddress address) :
    ∃ e, validateAddress address m = .error e m := by
  rw [validateAddress, bind_get]
  by_cases aligned : (address + 2 ^ 64 - m.startAddress) % 2 ^ 64 % m.getExtentSize = 0
  · rw [bind_of_ok (raiseIf_of_neg (not_not.mpr aligned))]
    refine ⟨_, raiseIf_of_pos ?_⟩
    by_contra inRange
    exact invalid ⟨aligned, by omega, by omega⟩
  · exact ⟨_, bind_of_error (raiseIf_of_pos aligned)⟩

/-- A swap of two addresses that are accepted. -/
theorem swap_of_valid (valid1 : m.ValidAddress addr1) (valid2 : m.ValidAddress addr2)
    (distinct : addr1 ≠ addr2) : RewiredMemory.swap addr1 addr2 mmap1 mmap2 m =
      (if mmap1 = false then .error (.firstRewiringFailed addr1) m
      else
        let i := (addr1 - m.startAddress) / m.getExtentSize
        let j := (addr2 - m.startAddress) / m.getExtentSize
        let ppage1 := m.translationMap.getD i 0
        let ppage2 := m.translationMap.getD j 0
        let half := { m with mapping := Function.update m.mapping i ppage2 }
        if mmap2 = false then .error (.secondRewiringFailed addr2) half
        else .ok () { m with
          mapping := Function.update half.mapping j ppage1
          translationMap := (m.translationMap.set i ppage2).set j ppage1 }) := by
  rw [RewiredMemory.swap, bind_of_ok (validateAddress_of_valid valid1),
    bind_of_ok (validateAddress_of_valid valid2), bind_of_ok (raiseIf_of_neg distinct), bind_get]
  cases mmap1 <;> cases mmap2 <;> rfl

/-- A swap that raises changes nothing, unless it is torn. -/
theorem swap_raises (untorn : ¬m.Torn (.swap addr1 addr2 mmap1 mmap2))
    (raises : m.Raises (.swap addr1 addr2 mmap1 mmap2)) :
    m.after (.swap addr1 addr2 mmap1 mmap2) = m := by
  have shown : ∀ e, RewiredMemory.swap addr1 addr2 mmap1 mmap2 m = .error e m →
      m.after (.swap addr1 addr2 mmap1 mmap2) = m := by
    intro e raised
    rw [after, Call.method, raised]
  by_cases valid1 : m.ValidAddress addr1
  swap
  · rcases validateAddress_of_invalid valid1 with ⟨e, raised⟩
    exact shown e (bind_of_error raised)
  by_cases valid2 : m.ValidAddress addr2
  swap
  · rcases validateAddress_of_invalid valid2 with ⟨e, raised⟩
    refine shown e ?_
    rw [RewiredMemory.swap, bind_of_ok (validateAddress_of_valid valid1), bind_of_error raised]
  by_cases same : addr1 = addr2
  · refine shown (.sameAddress addr1) ?_
    rw [RewiredMemory.swap, bind_of_ok (validateAddress_of_valid valid1),
      bind_of_ok (validateAddress_of_valid valid2)]
    exact bind_of_error (raiseIf_of_pos same)
  · have value := @swap_of_valid α m addr1 addr2 mmap1 mmap2 valid1 valid2 same
    rcases mmap1 with _ | _
    · exact shown _ value
    · rcases mmap2 with _ | _
      · exact absurd ⟨valid1, valid2, same, rfl, rfl⟩ untorn
      · rw [Raises, Call.method, value] at raises
        exact raises.elim

/-- An extension by some extents. -/
theorem extend_of_pos {numExtents : Nat} (some : numExtents ≠ 0) :
    RewiredMemory.extend numExtents growth m =
      (if m.memoryInBytes numExtents > m.maxMemory then
        .error (.limitReached m.getAllocatedMemorySize (m.memoryInBytes numExtents)) m
      else if growth.ftruncate = false then
        .error (.cannotAllocatePhysical (m.memoryInBytes numExtents)) m
      else
        if ¬m.Reserves numExtents growth then
          .error .badAlloc (m.truncate (m.memoryInBytes numExtents) growth.content)
        else
          let pushed := min numExtents (growth.entries - m.translationMap.length)
          if pushed < numExtents then .error .badAlloc (m.grown numExtents growth pushed)
          else .ok () (m.grown numExtents growth pushed)) := by
  rw [RewiredMemory.extend, if_neg some, bind_get]
  by_cases limit : m.memoryInBytes numExtents > m.maxMemory
  · rw [if_pos limit]
    exact bind_of_error (raiseIf_of_pos limit)
  rw [if_neg limit]
  refine (bind_of_ok (raiseIf_of_neg limit)).trans ?_
  by_cases fails : growth.ftruncate = false
  · rw [if_pos fails]
    exact bind_of_error (raiseIf_of_pos fails)
  rw [if_neg fails]
  refine (bind_of_ok (raiseIf_of_neg fails)).trans ((bind_of_ok rfl).trans ?_)
  by_cases short : ¬m.Reserves numExtents growth
  · simp only [if_pos short]
    exact bind_of_error (raiseIf_of_pos short)
  simp only [if_neg short]
  refine (bind_of_ok (raiseIf_of_neg short)).trans ((bind_of_ok rfl).trans ?_)
  by_cases less : min numExtents (growth.entries - m.translationMap.length) < numExtents
  · rw [if_pos less]
    exact raiseIf_of_pos less
  · rw [if_neg less]
    exact raiseIf_of_neg less

/-- All the entries are added where the map is asked for them. -/
theorem WF.pushed_eq (wf : m.WF) {numExtents : Nat} (fits : m.Fits numExtents)
    (reserves : m.Reserves numExtents growth) :
    min numExtents (growth.entries - m.translationMap.length) = numExtents := by
  have extents : m.getAllocatedExtents + numExtents ≤
      (m.getAllocatedExtents + numExtents) * m.getExtentSize :=
    Nat.le_mul_of_pos_right _ wf.extent_pos
  unfold Fits at fits
  rw [wf.allocated, Nat.mul_comm m.getExtentSize, ← Nat.add_mul] at fits
  unfold Reserves at reserves
  rw [Nat.mod_eq_of_lt (by omega)] at reserves
  unfold getAllocatedExtents at reserves
  omega

/-- An extension that is not torn raises before the file is truncated, or leaves it long
enough, or fits. -/
theorem WF.extend_cases (wf : m.WF) {numExtents : UInt64} (some : numExtents.toNat ≠ 0)
    (untorn : ¬m.Torn (.extend numExtents growth)) :
    (∃ e, RewiredMemory.extend numExtents.toNat growth m = .error e m) ∨
    (∃ e, m.memoryInBytes numExtents.toNat ≤ m.maxMemory ∧
      (m.Fits numExtents.toNat ∨
        m.getAllocatedMemorySize ≤ m.memoryInBytes numExtents.toNat) ∧
      RewiredMemory.extend numExtents.toNat growth m =
        .error e (m.truncate (m.memoryInBytes numExtents.toNat) growth.content)) ∨
    (m.Fits numExtents.toNat ∧
      ∃ m', RewiredMemory.extend numExtents.toNat growth m = .ok () m') := by
  rw [extend_of_pos some]
  by_cases limit : m.memoryInBytes numExtents.toNat > m.maxMemory
  · exact Or.inl ⟨_, if_pos limit⟩
  rw [if_neg limit]
  by_cases fails : growth.ftruncate = false
  · exact Or.inl ⟨_, if_pos fails⟩
  rw [if_neg fails]
  have fits : m.Fits numExtents.toNat ∨ ¬m.Reserves numExtents.toNat growth ∧
      m.getAllocatedMemorySize ≤ m.memoryInBytes numExtents.toNat := by
    by_contra other
    rw [not_or, not_and_or, not_not, not_le] at other
    exact untorn ⟨some, other.1, not_lt.mp limit, by simpa using fails, other.2⟩
  by_cases short : ¬m.Reserves numExtents.toNat growth
  · exact Or.inr (Or.inl ⟨_, not_lt.mp limit, fits.imp_right And.right, if_pos short⟩)
  · have whole := fits.resolve_right fun h => short h.1
    refine Or.inr (Or.inr ⟨whole, _, (if_neg short).trans (if_neg ?_)⟩)
    rw [wf.pushed_eq whole (not_not.mp short)]
    exact lt_irrefl _

/-- A call keeps the state well formed unless it is torn, and where it raises then, all
extents show what they did. -/
theorem WF.after (wf : m.WF) {c : Call α} (untorn : ¬m.Torn c) :
    (m.after c).WF ∧
      (m.Raises c → ∀ i < m.getAllocatedExtents, (m.after c).visible i = m.visible i) := by
  cases c with
  | swap addr1 addr2 mmap1 mmap2 =>
      by_cases raises : m.Raises (.swap addr1 addr2 mmap1 mmap2)
      · rw [swap_raises untorn raises]
        exact ⟨wf, fun _ _ _ => rfl⟩
      · refine ⟨?_, fun h => absurd h raises⟩
        rw [Raises] at raises
        rw [RewiredMemory.after]
        rcases done : (Call.swap addr1 addr2 mmap1 mmap2).method m with ⟨u, m'⟩ | ⟨e, m'⟩
        · exact wf.swap done
        · rw [done] at raises
          exact absurd trivial raises
  | extend numExtents growth =>
      rw [RewiredMemory.after, Raises, Call.method]
      by_cases none : numExtents.toNat = 0
      · rw [RewiredMemory.extend, if_pos none]
        exact ⟨wf, fun _ _ _ => rfl⟩
      rcases wf.extend_cases none untorn with
        ⟨e, raised⟩ | ⟨e, room, kept, raised⟩ | ⟨fits, m', done⟩
      · rw [raised]
        exact ⟨wf, fun _ _ _ => rfl⟩
      · rw [raised]
        have lower : m.getExtentSize * m.getAllocatedExtents ≤
            m.memoryInBytes numExtents.toNat := by
          rcases kept with fits | enough
          · rw [wf.memoryInBytes_eq fits]
            exact Nat.mul_le_mul_left _ (Nat.le_add_right _ _)
          · rwa [wf.allocated] at enough
        exact ⟨wf.truncate _ lower room, fun _ i h => wf.visible_truncate lower room h⟩
      · rw [done]
        exact ⟨(extend_ok wf fits done).1, fun h => h.elim⟩

/-- The extent of a valid address. -/
theorem ValidAddress.extent (wf : m.WF) (valid : m.ValidAddress address) :
    (address - m.startAddress) / m.getExtentSize < m.translationMap.length ∧
      address = m.addressOf ((address - m.startAddress) / m.getExtentSize) := by
  rcases validateAddress_ok wf (validateAddress_of_valid valid) with ⟨-, i, inside, rfl⟩
  rw [index_addressOf m wf.extent_pos]
  exact ⟨inside, rfl⟩

/-- After a torn swap two extents show the same physical extent. -/
theorem Torn.swap_not_describes (wf : m.WF)
    (torn : m.Torn (.swap addr1 addr2 mmap1 mmap2)) :
    ¬(m.after (.swap addr1 addr2 mmap1 mmap2)).Describes := by
  rcases torn with ⟨valid1, valid2, distinct, rfl, rfl⟩
  rcases valid1.extent wf with ⟨insideI, addressI⟩
  rcases valid2.extent wf with ⟨insideJ, addressJ⟩
  have value := @swap_of_valid α m addr1 addr2 true false valid1 valid2 distinct
  set i := (addr1 - m.startAddress) / m.getExtentSize with i_eq
  set j := (addr2 - m.startAddress) / m.getExtentSize with j_eq
  have apart : i ≠ j := fun same => distinct (by rw [addressI, addressJ, same])
  have left : m.after (.swap addr1 addr2 true false) =
      { m with mapping := Function.update m.mapping i (m.translationMap.getD j 0) } := by
    rw [RewiredMemory.after, Call.method, value]
    rfl
  have second : m.translationMap.getD j 0 = m.translationMap[j] := by simp [insideJ]
  rw [left, second]
  intro describes
  have recorded := describes.mapping_eq i insideI
  simp only [Function.update_self] at recorded
  exact apart ((List.Nodup.getElem_inj_iff wf.nodup).mp recorded.symm)

/-- Where the number of entries wraps around, the file is cut. -/
theorem WF.memoryInBytes_lt (wf : m.WF) {numExtents : UInt64}
    (wraps : 2 ^ 64 ≤ m.getAllocatedExtents + numExtents.toNat) :
    m.memoryInBytes numExtents.toNat < m.getAllocatedMemorySize := by
  have range := wf.range
  have allocated := wf.allocated
  have size := wf.size_le
  have file := wf.file_le
  have word := numExtents.toNat_lt
  -- the extents that are missing to the whole address space
  obtain ⟨j, missing⟩ : ∃ j, numExtents.toNat + j = 2 ^ 64 := ⟨_, Nat.add_sub_cancel' word.le⟩
  have bytes : numExtents.toNat * m.getExtentSize + j * m.getExtentSize =
      2 ^ 64 * m.getExtentSize := by
    rw [← Nat.add_mul, missing]
  have le : j * m.getExtentSize ≤ m.getAllocatedMemorySize := by
    rw [allocated, Nat.mul_comm m.getExtentSize]
    exact Nat.mul_le_mul_right _ (by omega)
  have positive : 0 < j * m.getExtentSize := Nat.mul_pos (by omega) wf.extent_pos
  unfold RewiredMemory.memoryInBytes
  omega

/-- After a torn extension the file does not hold the extents. -/
theorem Torn.extend_not_describes (wf : m.WF) {numExtents : UInt64}
    (torn : m.Torn (.extend numExtents growth)) :
    ¬(m.after (.extend numExtents growth)).Describes := by
  rcases torn with ⟨some, wraps, room, truncates, broken⟩
  intro describes
  have backed := describes.backed
  have size := wf.allocated
  rw [RewiredMemory.after, Call.method, extend_of_pos some, if_neg (not_lt.mpr room),
    if_neg (by simp [truncates])] at backed
  by_cases short : ¬m.Reserves numExtents.toNat growth
  · simp only [if_pos short] at backed
    have less := broken.resolve_left short
    have held : m.getExtentSize * m.getAllocatedExtents ≤
        m.memoryInBytes numExtents.toNat := backed
    omega
  simp only [if_neg short] at backed
  generalize pushedEq : min numExtents.toNat (growth.entries - m.translationMap.length) = pushed
    at backed
  have held : m.getExtentSize * (m.translationMap ++ (List.range pushed).map
      (m.translationMap.length + ·)).length ≤ m.memoryInBytes numExtents.toNat := by
    by_cases less : pushed < numExtents.toNat
    · simp only [if_pos less] at backed
      exact backed
    · simp only [if_neg less] at backed
      exact backed
  rw [List.length_append, List.length_map, List.length_range, Nat.mul_add] at held
  have reserved := not_not.mp short
  unfold Reserves at reserved
  unfold getAllocatedExtents at size reserved
  by_cases words : m.getAllocatedExtents + numExtents.toNat < 2 ^ 64
  · -- all the entries are added
    unfold getAllocatedExtents at words
    obtain rfl : pushed = numExtents.toNat := by omega
    unfold Fits at wraps
    have range := wf.range
    rw [Nat.mul_comm m.getExtentSize numExtents.toNat] at held
    omega
  · have less := wf.memoryInBytes_lt (not_lt.mp words)
    omega

theorem Torn.not_describes (wf : m.WF) {c : Call α} (torn : m.Torn c) :
    ¬(m.after c).Describes := by
  cases c with
  | swap addr1 addr2 mmap1 mmap2 => exact torn.swap_not_describes wf
  | extend numExtents growth => exact torn.extend_not_describes wf

end Raising

/-! ## Runs -/

/-- At every moment of the run the map describes the mapping, no two allocated extents
show the same physical extent, and a call that raises changes nothing visible. -/
def KeepsRun (m : RewiredMemory α) : List (Call α) → Prop
  | [] => m.Describes ∧ Set.InjOn m.mapping (Set.Iio m.getAllocatedExtents)
  | c :: calls => (m.Describes ∧ Set.InjOn m.mapping (Set.Iio m.getAllocatedExtents)) ∧
      (m.Raises c → ∀ i < m.getAllocatedExtents, (m.after c).visible i = m.visible i) ∧
      (m.after c).KeepsRun calls

/-- No call of the run is torn. -/
def UntornRun (m : RewiredMemory α) : List (Call α) → Prop
  | [] => True
  | c :: calls => ¬m.Torn c ∧ (m.after c).UntornRun calls

theorem KeepsRun.describes {m : RewiredMemory α} {calls : List (Call α)}
    (keeps : m.KeepsRun calls) : m.Describes := by
  cases calls with
  | nil => exact keeps.1
  | cons c calls => exact keeps.1.1

theorem WF.keepsRun_iff {m : RewiredMemory α} (wf : m.WF) (calls : List (Call α)) :
    m.KeepsRun calls ↔ m.UntornRun calls := by
  induction calls generalizing m with
  | nil => exact ⟨fun _ => trivial, fun _ => ⟨wf.describes, wf.mapping_injective.injOn⟩⟩
  | cons c calls ih =>
      constructor
      · rintro ⟨-, -, rest⟩
        have untorn : ¬m.Torn c := fun torn => torn.not_describes wf rest.describes
        exact ⟨untorn, (ih (wf.after untorn).1).mp rest⟩
      · rintro ⟨untorn, rest⟩
        exact ⟨⟨wf.describes, wf.mapping_injective.injOn⟩, (wf.after untorn).2,
          (ih (wf.after untorn).1).mpr rest⟩

/-- An instance whose extents have no bytes: the size of one wrapped to 0. -/
structure Hollow (m : RewiredMemory α) : Prop where
  extent : m.getExtentSize = 0
  map : m.translationMap = List.range m.getAllocatedExtents
  mapping : m.mapping = id

section Hollow

variable {m : RewiredMemory α}

theorem Hollow.describes (hollow : m.Hollow) :
    m.Describes ∧ Set.InjOn m.mapping (Set.Iio m.getAllocatedExtents) := by
  refine ⟨⟨by rw [← hollow.map], fun i h => ?_, by simp [hollow.extent]⟩, ?_⟩
  · simp only [hollow.mapping, id, hollow.map, List.getElem_range]
  · rw [hollow.mapping]
    exact Set.injOn_id _

theorem Hollow.untorn (hollow : m.Hollow) (c : Call α) : ¬m.Torn c := by
  have allocated : m.getAllocatedMemorySize = 0 := by
    simp [getAllocatedMemorySize, hollow.extent]
  cases c with
  | swap addr1 addr2 mmap1 mmap2 =>
      rintro ⟨⟨-, lower, upper⟩, -⟩
      omega
  | extend numExtents growth =>
      rintro ⟨-, wraps, -⟩
      exact wraps (by simp [Fits, allocated, hollow.extent])

/-- All the extents are in a file of any size, whatever is changed. -/
theorem Hollow.visible (hollow : m.Hollow) (i : Nat) : m.visible i = some (m.physical i) := by
  rw [RewiredMemory.visible, hollow.mapping, load, hollow.extent]
  simp

theorem Hollow.truncate (hollow : m.Hollow) (size : Nat) (content : Nat → α) :
    (m.truncate size content).Hollow ∧ ∀ i, (m.truncate size content).visible i = m.visible i := by
  have truncated : (m.truncate size content).Hollow := ⟨hollow.extent, hollow.map, hollow.mapping⟩
  refine ⟨truncated, fun i => ?_⟩
  rw [truncated.visible, hollow.visible]
  exact congrArg some (if_pos (by simp [hollow.extent]))

theorem Hollow.grown (hollow : m.Hollow) (numExtents : Nat) (growth : Growth α) (pushed : Nat) :
    (m.grown numExtents growth pushed).Hollow ∧
      ∀ i, (m.grown numExtents growth pushed).visible i = m.visible i := by
  obtain ⟨truncated, seen⟩ := hollow.truncate (m.memoryInBytes numExtents) growth.content
  refine ⟨⟨hollow.extent, ?_, hollow.mapping⟩, seen⟩
  change m.translationMap ++ (List.range pushed).map (m.translationMap.length + ·) =
    List.range (m.translationMap ++ (List.range pushed).map (m.translationMap.length + ·)).length
  rw [List.length_append, List.length_map, List.length_range, List.range_add]
  exact congrArg (· ++ _) hollow.map

/-- A call changes nothing visible. -/
theorem Hollow.after (hollow : m.Hollow) (c : Call α) :
    (m.after c).Hollow ∧ ∀ i, (m.after c).visible i = m.visible i := by
  have unchanged : m.Hollow ∧ ∀ i, m.visible i = m.visible i := ⟨hollow, fun _ => rfl⟩
  cases c with
  | swap addr1 addr2 mmap1 mmap2 =>
      have invalid : ¬m.ValidAddress addr1 := by
        rintro ⟨-, lower, upper⟩
        rw [getAllocatedMemorySize, hollow.extent] at upper
        omega
      obtain ⟨e, raised⟩ := validateAddress_of_invalid invalid
      have same : m.after (.swap addr1 addr2 mmap1 mmap2) = m := by
        rw [RewiredMemory.after, Call.method, RewiredMemory.swap, bind_of_error raised]
      rwa [same]
  | extend numExtents growth =>
      rw [RewiredMemory.after, Call.method]
      by_cases none : numExtents.toNat = 0
      · rw [RewiredMemory.extend, if_pos none]
        exact unchanged
      rw [extend_of_pos none]
      by_cases limit : m.memoryInBytes numExtents.toNat > m.maxMemory
      · rw [if_pos limit]
        exact unchanged
      rw [if_neg limit]
      by_cases fails : growth.ftruncate = false
      · rw [if_pos fails]
        exact unchanged
      rw [if_neg fails]
      by_cases short : ¬m.Reserves numExtents.toNat growth
      · rw [if_pos short]
        exact hollow.truncate _ _
      rw [if_neg short]
      dsimp only
      generalize min numExtents.toNat (growth.entries - m.translationMap.length) = pushed
      by_cases less : pushed < numExtents.toNat
      · rw [if_pos less]
        exact hollow.grown _ _ _
      · rw [if_neg less]
        exact hollow.grown _ _ _

theorem Hollow.keepsRun (hollow : m.Hollow) (calls : List (Call α)) :
    m.KeepsRun calls ∧ m.UntornRun calls := by
  induction calls generalizing m with
  | nil => exact ⟨hollow.describes, trivial⟩
  | cons c calls ih =>
      obtain ⟨after, seen⟩ := hollow.after c
      exact ⟨⟨hollow.describes, fun _ i _ => seen i, (ih after).1⟩, hollow.untorn c, (ih after).2⟩

end Hollow

/-- A swap, two extensions that fail, one beyond the limit, and a swap that fails first. -/
def someCalls : List (Call Nat) :=
  [.swap 8192 12288 true true, .extend 3 ⟨false, 16, id⟩, .extend 3 ⟨true, 4, id⟩,
    .extend 20 ⟨true, 16, id⟩, .swap 8192 12288 false true]

end RewiredMemory

end Rma
