import Rma.Base.Multimap
import Rma.SumResult

/-!
# Scans over a chain of leaves

The trees that keep their elements in a linked list of leaves go through it the same way: an
iterator that stops at the first key above a bound, and a sum over the leaves. Only the occupied
positions of a leaf are read; what reads another is undefined. `drain_spec` and `sumLeaves_spec` say
what the two give from a position on.
-/

namespace Rma

open Base SumResult

/-- The leaves by address: the elements of each, and the one that follows. -/
structure LeafScan where
  elements : Nat → List (Int × Int)
  next : Nat → Option Nat

namespace LeafScan

/-- `leaf->N` -/
def size (c : LeafScan) (leaf : Nat) : Nat := (c.elements leaf).length

/-- `KEYS(leaf)[i]` and `VALUES(leaf)[i]` -/
def readElement (c : LeafScan) (leaf i : Nat) : Option (Int × Int) := (c.elements leaf)[i]?

/-- `KEYS(leaf)[i]` -/
def readKey (c : LeafScan) (leaf i : Nat) : Option Int := (c.readElement leaf i).map Prod.fst

/-- The fields of an iterator, apart from the tree; `block` is the address of a leaf. -/
structure Iterator where
  block : Option Nat
  pos : Nat
  max : Int
  deriving DecidableEq, Repr

/-- `create_iterator` -/
def createIterator (c : LeafScan) (max : Int) (leaf : Option Nat) (pos : Nat) : Option Iterator :=
  match leaf with
  | none => some ⟨none, 0, max⟩
  | some leaf => do
    let key ← c.readKey leaf pos
    some (if key > max then ⟨none, 0, max⟩ else ⟨some leaf, pos, max⟩)

namespace Iterator

def hasNext (it : Iterator) : Bool := it.block.isSome

/-- The element under the iterator, and the iterator moved to the next one. -/
def next (c : LeafScan) (it : Iterator) : Option ((Int × Int) × Iterator) :=
  match it.block with
  | none => some ((-1, -1), it)
  | some block => do
    let v ← c.readElement block it.pos
    let it := if it.pos ≥ c.size block - 1 then { it with block := c.next block, pos := 0 }
      else { it with pos := it.pos + 1 }
    -- does the next item satisfy the interval?
    match it.block with
    | none => some (v, it)
    | some block => do
      let key ← c.readKey block it.pos
      some (v, if key > it.max then { it with block := none } else it)

/-- Call `next`, as long as there is one, at most `count` times. -/
def drain (c : LeafScan) : Nat → Iterator → Option (List (Int × Int))
  | 0, _ => some []
  | count + 1, it =>
    if it.hasNext then do
      let (element, it) ← it.next c
      let elements ← drain c count it
      some (element :: elements)
    else some []

end Iterator

/-- The loop over the leaves; undefined when `fuel` runs out. -/
def sumLeaves (c : LeafScan) (max : Int) : Nat → Nat → Nat → SumResult → Option SumResult
  | 0, _, _, _ => none
  | fuel + 1, leaf, i, result => do
    -- `while(i < N && keys[i] <= max)`
    let part := ((c.elements leaf).drop i).takeWhile fun e => e.1 ≤ max
    let result := accumulate result part
    let i := i + part.length
    let last ← if i = 0 then none else c.readKey leaf (i - 1)
    let result := { result with lastKey := last }
    -- move to the next leaf
    if i ≥ c.size leaf then
      match c.next leaf with
      | none => some result
      | some sibling => do
        let first ← c.readKey sibling 0
        if first > max then some result else sumLeaves c max fuel sibling 0 result
    else some result

/-! ## The pairs from a position on -/

/-- The leaves from one of them to the last one, none of them empty. -/
def Run (c : LeafScan) : List (Nat × List (Int × Int)) → Prop
  | [] => True
  | b :: post => c.elements b.1 = b.2 ∧ b.2 ≠ [] ∧ c.next b.1 = post.head?.map Prod.fst ∧ c.Run post

/-- The pairs from a position of a leaf on. -/
def pairsFrom (b : Nat × List (Int × Int)) (post : List (Nat × List (Int × Int))) (i : Nat) :
    List (Int × Int) :=
  b.2.drop i ++ post.flatMap Prod.snd

section Position

variable {c : LeafScan} {b m : Nat × List (Int × Int)} {post : List (Nat × List (Int × Int))}
  {i : Nat} {max : Int}

theorem Run.size (run : c.Run (b :: post)) : c.size b.1 = b.2.length := by
  rw [LeafScan.size, run.1]

theorem Run.readElement (run : c.Run (b :: post)) (inside : i < b.2.length) :
    c.readElement b.1 i = some b.2[i] := by
  rw [LeafScan.readElement, run.1, List.getElem?_eq_getElem inside]

theorem Run.readKey (run : c.Run (b :: post)) (inside : i < b.2.length) :
    c.readKey b.1 i = some (b.2[i]).1 := by
  rw [LeafScan.readKey, run.readElement inside, Option.map_some]

theorem Run.positive (run : c.Run (b :: post)) : 0 < b.2.length :=
  List.length_pos_of_ne_nil run.2.1

theorem pairsFrom_cons (inside : i < b.2.length) :
    pairsFrom b post i = b.2[i] :: pairsFrom b post (i + 1) := by
  rw [pairsFrom, pairsFrom, List.drop_eq_getElem_cons inside, List.cons_append]

/-- Past the last position of a leaf come the pairs of the next one. -/
theorem pairsFrom_length (outside : b.2.length ≤ i) :
    pairsFrom b post i = post.flatMap Prod.snd := by
  rw [pairsFrom, List.drop_eq_nil_of_le outside, List.nil_append]

theorem pairsFrom_zero : pairsFrom b post 0 = (b :: post).flatMap Prod.snd := rfl

/-- The pairs up to `max` from a position whose key is greater. -/
theorem takeWhile_pairsFrom (inside : i < b.2.length) (greater : max < (b.2[i]).1) :
    (pairsFrom b post i).takeWhile (fun e => e.1 ≤ max) = [] := by
  rw [pairsFrom_cons inside, List.takeWhile_cons_of_neg (by simpa using greater)]

/-- The pairs up to `max` from a position whose key is not greater. -/
theorem takeWhile_pairsFrom_cons (inside : i < b.2.length) (atMost : (b.2[i]).1 ≤ max) :
    (pairsFrom b post i).takeWhile (fun e => e.1 ≤ max) =
      b.2[i] :: (pairsFrom b post (i + 1)).takeWhile fun e => e.1 ≤ max := by
  rw [pairsFrom_cons inside, List.takeWhile_cons_of_pos (by simpa using atMost)]

end Position

/-! ## The iterator -/

/-- What an iterator still has to give. -/
inductive Iterator.Yields (c : LeafScan) : Iterator → List (Int × Int) → Prop
  | done {pos : Nat} {max : Int} : Yields c ⟨none, pos, max⟩ []
  | here {b : Nat × List (Int × Int)} {post : List (Nat × List (Int × Int))} {pos : Nat} {max : Int}
    (run : c.Run (b :: post)) (inside : pos < b.2.length) (atMost : (b.2[pos]).1 ≤ max) :
    Yields c ⟨some b.1, pos, max⟩ ((pairsFrom b post pos).takeWhile fun e => e.1 ≤ max)

section Drain

variable {c : LeafScan} {b : Nat × List (Int × Int)} {post : List (Nat × List (Int × Int))}
  {i : Nat} {max : Int} {it : Iterator} {out : List (Int × Int)}

/-- An iterator that stops at a key greater than `max` yields the pairs up to `max`. -/
theorem Iterator.Yields.stand (run : c.Run (b :: post)) (inside : i < b.2.length) (pos : Nat) :
    Yields c (if (b.2[i]).1 > max then ⟨none, pos, max⟩ else ⟨some b.1, i, max⟩)
      ((pairsFrom b post i).takeWhile fun e => e.1 ≤ max) := by
  by_cases greater : (b.2[i]).1 > max
  · rw [if_pos greater, takeWhile_pairsFrom inside greater]
    exact .done
  · rw [if_neg greater]
    exact .here run inside (not_lt.mp greater)

/-- One call of `next`. -/
theorem Iterator.Yields.next (yields : it.Yields c out) (more : it.hasNext = true) :
    ∃ e rest it', out = e :: rest ∧ it.next c = some (e, it') ∧ it'.Yields c rest := by
  cases yields with
  | done => cases more
  | @here b post pos max run inside atMost =>
      rw [takeWhile_pairsFrom_cons inside atMost]
      simp only [Iterator.next, run.readElement inside, run.size, run.2.2.1, Option.bind_eq_bind,
        Option.bind_some]
      by_cases last : pos ≥ b.2.length - 1
      · rw [if_pos last, pairsFrom_length (by omega)]
        cases post with
        | nil => exact ⟨_, _, _, rfl, rfl, .done⟩
        | cons m post =>
            have run' := run.2.2.2
            simp only [List.head?_cons, Option.map_some, run'.readKey run'.positive,
              Option.bind_some]
            exact ⟨_, _, _, rfl, rfl, .stand run' run'.positive 0⟩
      · rw [if_neg last]
        have inside' : pos + 1 < b.2.length := by omega
        simp only [run.readKey inside', Option.bind_some]
        exact ⟨_, _, _, rfl, rfl, .stand run inside' _⟩

/-- The whole run of an iterator. -/
theorem Iterator.Yields.drain (yields : it.Yields c out) (count : Nat) :
    it.drain c count = some (out.take count) := by
  induction count generalizing it out with
  | zero => rfl
  | succ count ih =>
      by_cases more : it.hasNext = true
      · obtain ⟨e, rest, it', rfl, next, yields'⟩ := yields.next more
        rw [Iterator.drain, if_pos more, next]
        simp only [Option.bind_eq_bind, Option.bind_some, ih yields', List.take_succ_cons]
      · rw [Iterator.drain, if_neg more]
        cases yields with
        | done => rfl
        | here => exact absurd rfl more

/-- An iterator created at a position yields the pairs up to `max`. -/
theorem Run.createIterator (run : c.Run (b :: post)) (inside : i < b.2.length) (max : Int) :
    ∃ it, c.createIterator max (some b.1) i = some it ∧
      it.Yields c ((pairsFrom b post i).takeWhile fun e => e.1 ≤ max) := by
  refine ⟨_, ?_, .stand run inside 0⟩
  simp only [LeafScan.createIterator, run.readKey inside, Option.bind_eq_bind, Option.bind_some]

end Drain

/-! ## The sum -/

section Sum

variable {c : LeafScan} {b : Nat × List (Int × Int)} {post : List (Nat × List (Int × Int))}
  {i : Nat} {max : Int}

/-- The element at the end of a part that starts at a position. -/
theorem getLast_of_prefix {l part : List (Int × Int)} {e : Int × Int} (front : part <+: l.drop i)
    (final : part.getLast? = some e) : l[i + part.length - 1]? = some e := by
  obtain ⟨start, rfl⟩ := List.getLast?_eq_some_iff.mp final
  obtain ⟨tail, split⟩ := front
  rw [List.length_append, List.length_singleton, ← Nat.add_assoc, Nat.add_sub_cancel,
    ← List.getElem?_drop, ← split]
  simp

/-- The loop over the leaves adds up the pairs up to `max`, and ends with the last key of them. -/
theorem sumLeaves_spec (max : Int) {fuel : Nat} (run : c.Run (b :: post)) (inside : i < b.2.length)
    (least : i = 0 → (b.2[i]).1 ≤ max) (enough : post.length < fuel) (result : SumResult) :
    ∃ last, c.sumLeaves max fuel b.1 i result =
        some { accumulate result ((pairsFrom b post i).takeWhile fun e => e.1 ≤ max) with
          lastKey := last } ∧
      ∀ e, ((pairsFrom b post i).takeWhile fun e => e.1 ≤ max).getLast? = some e → last = e.1 := by
  induction fuel generalizing b post i result with
  | zero => omega
  | succ fuel ih =>
      -- the pairs of this leaf, and the position after them
      obtain ⟨part, partEq⟩ : ∃ part, (b.2.drop i).takeWhile (fun e => e.1 ≤ max) = part :=
        ⟨_, rfl⟩
      have front : part <+: b.2.drop i := partEq ▸ List.takeWhile_prefix _
      have length : i + part.length ≤ b.2.length := by
        have bound := front.length_le
        rw [List.length_drop] at bound
        omega
      have moved : i + part.length ≠ 0 := by
        intro nothing
        have passes := least (by omega)
        rw [List.drop_eq_getElem_cons inside, List.takeWhile_cons_of_pos
          (by simpa using passes)] at partEq
        rw [← partEq, List.length_cons] at nothing
        omega
      have read := run.readKey (show i + part.length - 1 < b.2.length by omega)
      have last : ∀ e, part.getLast? = some e → (b.2[i + part.length - 1]).1 = e.1 := by
        intro e final
        have here := getLast_of_prefix front final
        rw [List.getElem?_eq_getElem (by omega)] at here
        rw [Option.some.inj here]
      simp only [sumLeaves, run.1, run.size, run.2.2.1, partEq, if_neg moved, read,
        Option.bind_eq_bind, Option.bind_some]
      by_cases full : i + part.length ≥ b.2.length
      · rw [if_pos full]
        have whole : part = b.2.drop i :=
          front.eq_of_length (by rw [List.length_drop]; omega)
        have passes : ∀ e ∈ b.2.drop i, decide (e.1 ≤ max) = true := by
          rw [← whole, ← partEq]
          intro e member
          have holds := List.mem_takeWhile_imp member
          exact holds
        have out : (pairsFrom b post i).takeWhile (fun e => e.1 ≤ max) =
            part ++ (post.flatMap Prod.snd).takeWhile fun e => e.1 ≤ max := by
          rw [pairsFrom, List.takeWhile_append_of_pos passes, whole]
        rw [out]
        cases post with
        | nil =>
            rw [List.flatMap_nil, List.takeWhile_nil, List.append_nil]
            exact ⟨_, rfl, last⟩
        | cons m rest =>
            have run' := run.2.2.2
            have positive := run'.positive
            simp only [List.head?_cons, Option.map_some, run'.readKey positive, Option.bind_some]
            rw [← pairsFrom_zero]
            by_cases greater : (m.2[0]).1 > max
            · rw [if_pos greater, takeWhile_pairsFrom positive greater, List.append_nil]
              exact ⟨_, rfl, last⟩
            · rw [if_neg greater]
              obtain ⟨last', summed, final⟩ := ih run' positive (fun _ => not_lt.mp greater)
                (by rw [List.length_cons] at enough; omega) _
              refine ⟨last', ?_, ?_⟩
              · rw [summed, accumulate_append]
                rfl
              · intro e member
                rw [takeWhile_pairsFrom_cons positive (not_lt.mp greater)] at member final
                apply final
                rwa [List.getLast?_append_cons] at member
      · rw [if_neg full]
        have out : (pairsFrom b post i).takeWhile (fun e => e.1 ≤ max) = part := by
          rw [pairsFrom, List.takeWhile_append, partEq, if_neg (by rw [List.length_drop]; omega)]
        rw [out]
        exact ⟨_, rfl, last⟩

/-- The sum from a position, with its key as the first one. -/
theorem Run.sums {fuel : Nat} (run : c.Run (b :: post)) (inside : i < b.2.length)
    (least : i = 0 → (b.2[i]).1 ≤ max) (enough : post.length < fuel) :
    ∃ result, c.sumLeaves max fuel b.1 i { SumResult.empty with firstKey := (b.2[i]).1 } =
        some result ∧ Sums ((pairsFrom b post i).takeWhile fun e => e.1 ≤ max) result := by
  obtain ⟨last, summed, final⟩ := sumLeaves_spec max run inside least enough
    { SumResult.empty with firstKey := (b.2[i]).1 }
  refine ⟨_, summed, Nat.zero_add _, foldl_addInt64_zero _, foldl_addInt64_zero _,
    fun e first => ?_, final⟩
  change (b.2[i]).1 = e.1
  rw [pairsFrom_cons inside, List.takeWhile_cons] at first
  split at first
  · rw [Option.some.inj first]
  · cases first

/-- From a first position whose key is above `max`, the key before it is read. -/
theorem sumLeaves_zero {fuel : Nat} (run : c.Run (b :: post)) (inside : 0 < b.2.length)
    (greater : max < (b.2[0]).1) (result : SumResult) :
    c.sumLeaves max fuel b.1 0 result = none := by
  cases fuel with
  | zero => rfl
  | succ fuel =>
      have nothing : (b.2.drop 0).takeWhile (fun e => decide (e.1 ≤ max)) = [] := by
        rw [List.drop_eq_getElem_cons inside, List.takeWhile_cons_of_neg (by simpa using greater)]
      simp only [sumLeaves, run.1, nothing, List.length_nil, Nat.add_zero, if_true]
      rfl

end Sum

end LeafScan

end Rma
