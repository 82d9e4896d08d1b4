import Rma.Base.Focus
import Rma.Base.Scan

/-!
# Sorted multimaps

A container that keeps its pairs sorted by key changes them by one of two edits:
`Inserted` puts a pair at a sorted position, `Removed` takes one pair with the
key out. Both are closed under adding pairs before and after, so that an edit of
a part is an edit of the whole, and both determine the multiset of the pairs.
-/

namespace Rma.Base

variable {κ β : Type*} [LinearOrder κ]

/-- The keys do not decrease. -/
def SortedPairs (l : List (κ × β)) : Prop := l.Pairwise fun x y => x.1 ≤ y.1

/-- `l'` is `l` with the pair `e` at a sorted position. -/
def Inserted (e : κ × β) (l l' : List (κ × β)) : Prop :=
  ∃ l₁ l₂, l = l₁ ++ l₂ ∧ l' = l₁ ++ e :: l₂ ∧ (∀ x ∈ l₁, x.1 ≤ e.1) ∧ ∀ x ∈ l₂, e.1 ≤ x.1

/-- `l'` is `l` with the pair at a sorted position, if there is one. -/
inductive Gained : Option (κ × β) → List (κ × β) → List (κ × β) → Prop
  | nothing (l : List (κ × β)) : Gained none l l
  | pair {e : κ × β} {l l' : List (κ × β)} : Inserted e l l' → Gained (some e) l l'

/-- `l'` is `l` without one pair with the key, whose value is `v`. -/
def Removed (key : κ) (v : β) (l l' : List (κ × β)) : Prop :=
  ∃ l₁ l₂, l = l₁ ++ (key, v) :: l₂ ∧ l' = l₁ ++ l₂

variable {e x : κ × β} {key : κ} {v : β} {l l' : List (κ × β)}

theorem SortedPairs.append_iff {l₁ l₂ : List (κ × β)} :
    SortedPairs (l₁ ++ l₂) ↔
      SortedPairs l₁ ∧ SortedPairs l₂ ∧ ∀ x ∈ l₁, ∀ y ∈ l₂, x.1 ≤ y.1 :=
  List.pairwise_append

/-- The first pair of a sorted list has the least key. -/
theorem SortedPairs.head_le (sorted : SortedPairs (e :: l)) : ∀ x ∈ e :: l, e.1 ≤ x.1 := by
  intro x member
  rcases List.mem_cons.mp member with rfl | member
  · exact le_rfl
  · exact (List.pairwise_cons.mp sorted).1 x member

/-- A later position holds a key that is no smaller. -/
theorem SortedPairs.getElem_le (sorted : SortedPairs l) {i j : Nat} (order : i ≤ j)
    (inside : j < l.length) : (l[i]).1 ≤ (l[j]).1 := by
  rcases Nat.eq_or_lt_of_le order with rfl | before
  · exact le_rfl
  · exact List.pairwise_iff_getElem.mp sorted i j _ inside before

/-- In a sorted list, what is at most a bound is at the front. -/
theorem SortedPairs.filter_le (sorted : SortedPairs l) (max : κ) :
    l.filter (fun x => x.1 ≤ max) = l.takeWhile fun x => x.1 ≤ max := by
  induction l with
  | nil => rfl
  | cons e l ih =>
      by_cases inside : e.1 ≤ max
      · have rest := ih (List.pairwise_cons.mp sorted).2
        rw [List.filter_cons_of_pos (by simpa), List.takeWhile_cons_of_pos (by simpa), rest]
      · rw [List.takeWhile_cons_of_neg (by simpa using inside), List.filter_eq_nil_iff]
        intro x member
        have after := sorted.head_le x member
        simpa using lt_of_lt_of_le (not_le.mp inside) after

/-- The pairs of a sorted list in an interval, from where the interval starts. -/
theorem SortedPairs.filter_interval {l₁ l₂ : List (κ × β)} {min : κ} (sorted : SortedPairs l₂)
    (below : ∀ x ∈ l₁, x.1 < min) (above : ∀ x ∈ l₂, min ≤ x.1) (max : κ) :
    (l₁ ++ l₂).filter (fun x => min ≤ x.1 ∧ x.1 ≤ max) = l₂.takeWhile fun x => x.1 ≤ max := by
  rw [List.filter_append, List.filter_eq_nil_iff.mpr, List.nil_append, ← sorted.filter_le max]
  · apply List.filter_congr
    intro x member
    simp [above x member]
  · intro x member
    have less := below x member
    simp only [decide_eq_true_eq, not_and]
    exact fun at_least => absurd less (not_lt.mpr at_least)

/-- What is smaller than a key is at the front. -/
theorem SortedPairs.split_first (sorted : SortedPairs l) (key : κ) :
    ∃ l₁ l₂, l = l₁ ++ l₂ ∧ (∀ x ∈ l₁, x.1 < key) ∧ (∀ x ∈ l₂, key ≤ x.1) ∧ SortedPairs l₂ ∧
      (l.takeWhile fun e => e.1 < key) = l₁ := by
  have split := @List.takeWhile_append_dropWhile _ (fun e => decide (e.1 < key)) l
  have sorted₂ : SortedPairs (l.dropWhile fun e => decide (e.1 < key)) :=
    sorted.sublist (List.dropWhile_sublist _)
  refine ⟨_, _, split.symm, fun x member => ?_, fun x member => ?_, sorted₂, rfl⟩
  · have passes := List.mem_takeWhile_imp member
    exact of_decide_eq_true passes
  · cases rest : l.dropWhile fun e => decide (e.1 < key) with
    | nil =>
        rw [rest] at member
        cases member
    | cons e m =>
        have fails := List.head?_dropWhile_not (fun e => decide (e.1 < key)) l
        rw [rest] at member sorted₂ fails
        exact (show key ≤ e.1 by simpa using fails).trans (sorted₂.head_le x member)

/-- Where the scan for a key does not stop at it, the key is not there; `f` reads the keys. -/
theorem SortedPairs.scan_key (sorted : SortedPairs l) {f : Nat → κ}
    (reads : ∀ i (inside : i < l.length), f i = (l[i]).1) (key : κ)
    (missed : ¬(scanUp (fun j => decide (f j < key)) 0 l.length < l.length ∧
      f (scanUp (fun j => decide (f j < key)) 0 l.length) = key)) : ∀ e ∈ l, e.1 ≠ key := by
  intro e member same
  rcases scanUp_spec (fun j => decide (f j < key)) 0 l.length with ⟨_, _, passed, stopped⟩
  generalize scanUp (fun j => decide (f j < key)) 0 l.length = i at *
  rcases List.mem_iff_getElem.mp member with ⟨j, inside, rfl⟩
  have later : i ≤ j := by
    by_contra earlier
    have less := of_decide_eq_true (passed j (Nat.zero_le _) (not_le.mp earlier))
    rw [reads j inside, same] at less
    exact absurd less (lt_irrefl key)
  have insideI : i < l.length := lt_of_le_of_lt later inside
  have notBelow := not_lt.mp (of_decide_eq_false (stopped (by omega)))
  refine missed ⟨insideI, le_antisymm ?_ notBelow⟩
  rw [reads i insideI, ← same]
  rcases Nat.eq_or_lt_of_le later with rfl | before
  · exact le_rfl
  · exact List.pairwise_iff_getElem.mp sorted i j insideI inside before

/-! ## Insertion -/

theorem Inserted.perm (inserted : Inserted e l l') : l'.Perm (e :: l) := by
  rcases inserted with ⟨l₁, l₂, rfl, rfl, _, _⟩
  exact List.perm_middle

theorem Inserted.length_eq (inserted : Inserted e l l') : l'.length = l.length + 1 := by
  simpa using inserted.perm.length_eq

theorem Inserted.sorted (inserted : Inserted e l l') (sorted : SortedPairs l) :
    SortedPairs l' := by
  rcases inserted with ⟨l₁, l₂, rfl, rfl, below, above⟩
  rcases SortedPairs.append_iff.mp sorted with ⟨sorted₁, sorted₂, apart⟩
  refine SortedPairs.append_iff.mpr ⟨sorted₁, List.pairwise_cons.mpr ⟨above, sorted₂⟩, ?_⟩
  intro x hx y hy
  rcases List.mem_cons.mp hy with rfl | hy
  · exact below x hx
  · exact apart x hx y hy

/-- A pair that is put before the first one that is not smaller, from some position on, is at a
sorted position just when no pair before that position is greater. -/
theorem SortedPairs.insert_iff {front rest : List (κ × β)} (sorted : SortedPairs (front ++ rest)) :
    SortedPairs (front ++ rest.takeWhile (fun x => x.1 < e.1) ++
      e :: rest.dropWhile (fun x => x.1 < e.1)) ↔ ∀ x ∈ front, x.1 ≤ e.1 := by
  obtain ⟨less, notLess, split, below, above, -, same⟩ :=
    (SortedPairs.append_iff.mp sorted).2.1.split_first e.1
  have after : rest.dropWhile (fun x => x.1 < e.1) = notLess := by
    have whole := List.takeWhile_append_dropWhile (p := fun x => decide (x.1 < e.1)) (l := rest)
    rw [same] at whole
    exact List.append_cancel_left (whole.trans split)
  rw [same, after]
  refine ⟨fun inserted x member => ?_, fun bound => ?_⟩
  · exact (SortedPairs.append_iff.mp inserted).2.2 x (List.mem_append_left _ member) e
      List.mem_cons_self
  · have inserted : Inserted e (front ++ rest) (front ++ less ++ e :: notLess) := by
      refine ⟨front ++ less, notLess, by rw [split, List.append_assoc], rfl, fun x member => ?_,
        above⟩
      rcases List.mem_append.mp member with early | late
      · exact bound x early
      · exact (below x late).le
    exact inserted.sorted sorted

/-- Inserting in a part inserts in the whole, when the key belongs in the part. -/
theorem Inserted.context (inserted : Inserted e l l') (pre post : List (κ × β))
    (below : ∀ x ∈ pre, x.1 ≤ e.1)
    (above : ∀ x ∈ post, e.1 ≤ x.1) : Inserted e (pre ++ l ++ post) (pre ++ l' ++ post) := by
  rcases inserted with ⟨l₁, l₂, rfl, rfl, below', above'⟩
  refine ⟨pre ++ l₁, l₂ ++ post, by simp, by simp, ?_, ?_⟩
  · intro x member
    exact (List.mem_append.mp member).elim (below x) (below' x)
  · intro x member
    exact (List.mem_append.mp member).elim (above' x) (above x)

/-- A smaller first pair stays the first one. -/
theorem Inserted.head (inserted : Inserted e (x :: l) l') (smaller : x.1 < e.1) :
    ∃ l'', l' = x :: l'' := by
  rcases inserted with ⟨l₁, l₂, split, rfl, _, above⟩
  cases l₁ with
  | nil => exact absurd (above x (by rw [← List.nil_append l₂, ← split]; simp)) (not_le.mpr smaller)
  | cons y l₁ =>
      cases split
      exact ⟨_, rfl⟩

section Gained

variable {insert : Option (κ × β)}

theorem Gained.eq_of_none (gained : Gained none l l') : l' = l := by
  cases gained
  rfl

theorem Gained.inserted (gained : Gained (some e) l l') : Inserted e l l' := by
  cases gained with
  | pair inserted => exact inserted

theorem Gained.perm (gained : Gained insert l l') : l'.Perm (insert.toList ++ l) := by
  cases gained with
  | nothing => exact List.Perm.refl _
  | pair inserted => exact inserted.perm

theorem Gained.sorted (gained : Gained insert l l') (sorted : SortedPairs l) : SortedPairs l' := by
  cases gained with
  | nothing => exact sorted
  | pair inserted => exact inserted.sorted sorted

theorem Gained.context (gained : Gained insert l l') (pre post : List (κ × β))
    (below : ∀ e, insert = some e → ∀ x ∈ pre, x.1 ≤ e.1)
    (above : ∀ e, insert = some e → ∀ x ∈ post, e.1 ≤ x.1) :
    Gained insert (pre ++ l ++ post) (pre ++ l' ++ post) := by
  cases gained with
  | nothing => exact Gained.nothing _
  | pair inserted => exact Gained.pair (inserted.context pre post (below _ rfl) (above _ rfl))

end Gained

/-! ## Insertion in an array -/

/-- A position between the smaller keys and the greater ones. -/
theorem inserted_insertIdx {k : Nat} (inside : k ≤ l.length)
    (below : ∀ i (h : i < l.length), i < k → (l[i]).1 ≤ e.1)
    (above : ∀ i (h : i < l.length), k ≤ i → e.1 ≤ (l[i]).1) : Inserted e l (l.insertIdx k e) := by
  have focus := insertIdx_focus (l.take k) (l.drop k) e
  rw [List.take_append_drop, List.length_take, min_eq_left inside] at focus
  refine ⟨l.take k, l.drop k, (List.take_append_drop k l).symm, focus, ?_, ?_⟩
  · intro x member
    rcases List.mem_take_iff_getElem.mp member with ⟨i, inside', rfl⟩
    exact below i _ (lt_of_lt_of_le inside' (min_le_left _ _))
  · intro x member
    rcases List.mem_drop_iff_getElem.mp member with ⟨i, inside', rfl⟩
    exact above (k + i) _ (Nat.le_add_right k i)

section Arrays

variable [Inhabited (κ × β)]

/-- Insert before the first pair whose key is not smaller. -/
def insertUp (e : κ × β) (l : List (κ × β)) : List (κ × β) :=
  l.insertIdx (scanUp (fun i => decide ((l.getD i default).1 < e.1)) 0 l.length) e

/-- Insert after the last pair whose key is not greater. -/
def insertDown (e : κ × β) (l : List (κ × β)) : List (κ × β) :=
  l.insertIdx (scanDown (fun i => decide ((l.getD i default).1 > e.1)) l.length) e

theorem insertUp_inserted (sorted : SortedPairs l) : Inserted e l (insertUp e l) := by
  rcases scanUp_spec (fun i => decide ((l.getD i default).1 < e.1)) 0 l.length with
    ⟨_, upper, passed, stopped⟩
  unfold insertUp
  generalize scanUp (fun i => decide ((l.getD i default).1 < e.1)) 0 l.length = k at *
  rw [Nat.zero_add] at upper stopped
  apply inserted_insertIdx upper
  · intro i inside before
    have less := of_decide_eq_true (passed i (Nat.zero_le i) before)
    rw [List.getD_eq_getElem _ _ inside] at less
    exact less.le
  · intro i inside after
    have first := not_lt.mp (of_decide_eq_false (stopped (lt_of_le_of_lt after inside)))
    rw [List.getD_eq_getElem _ _ (lt_of_le_of_lt after inside)] at first
    rcases Nat.eq_or_lt_of_le after with rfl | later
    · exact first
    · exact first.trans (List.pairwise_iff_getElem.mp sorted k i _ inside later)

theorem insertDown_inserted (sorted : SortedPairs l) : Inserted e l (insertDown e l) := by
  rcases scanDown_spec (fun i => decide ((l.getD i default).1 > e.1)) l.length with
    ⟨upper, passed, stopped⟩
  unfold insertDown
  generalize scanDown (fun i => decide ((l.getD i default).1 > e.1)) l.length = k at *
  apply inserted_insertIdx upper
  · intro i inside before
    have last := not_lt.mp (of_decide_eq_false (stopped (Nat.zero_lt_of_lt before)))
    rw [List.getD_eq_getElem _ _ (by omega : k - 1 < l.length)] at last
    rcases Nat.eq_or_lt_of_le (show i ≤ k - 1 by omega) with rfl | earlier
    · exact last
    · exact (List.pairwise_iff_getElem.mp sorted i (k - 1) _ _ earlier).trans last
  · intro i inside after
    have greater := of_decide_eq_true (passed i after inside)
    rw [List.getD_eq_getElem _ _ inside] at greater
    exact (show e.1 < (l[i]).1 from greater).le

/-- The place of `insertUp`: after the smaller keys, before a key that is not smaller. -/
theorem insertUp_split {l₁ l₂ : List (κ × β)} (below : ∀ x ∈ l₁, x.1 < e.1)
    (above : ∀ x, l₂.head? = some x → e.1 ≤ x.1) :
    scanUp (fun i => decide (((l₁ ++ l₂).getD i default).1 < e.1)) 0 (l₁ ++ l₂).length = l₁.length ∧
      insertUp e (l₁ ++ l₂) = l₁ ++ e :: l₂ := by
  have place : scanUp (fun i => decide (((l₁ ++ l₂).getD i default).1 < e.1)) 0
      (l₁ ++ l₂).length = l₁.length := by
    rcases scanUp_spec (fun i => decide (((l₁ ++ l₂).getD i default).1 < e.1)) 0 (l₁ ++ l₂).length
      with ⟨_, upper, passed, stopped⟩
    generalize scanUp (fun i => decide (((l₁ ++ l₂).getD i default).1 < e.1)) 0
      (l₁ ++ l₂).length = k at *
    rw [Nat.zero_add] at upper stopped
    rcases Nat.lt_trichotomy k l₁.length with less | same | more
    · have fails := of_decide_eq_false (stopped (by rw [List.length_append]; omega))
      rw [List.getD_append _ _ _ _ less, List.getD_eq_getElem _ _ less] at fails
      exact absurd (below _ (List.getElem_mem less)) fails
    · exact same
    · cases l₂ with
      | nil =>
          rw [List.append_nil] at upper
          omega
      | cons x l₂ =>
          have smaller := of_decide_eq_true (passed l₁.length (Nat.zero_le _) more)
          rw [getD_focus] at smaller
          exact absurd (above x rfl) (not_le.mpr smaller)
  refine ⟨place, ?_⟩
  rw [insertUp, place, insertIdx_focus]

omit [Inhabited (κ × β)] in
theorem exists_insertUp_split (e : κ × β) (l : List (κ × β)) : ∃ l₁ l₂, l = l₁ ++ l₂ ∧
    (∀ x ∈ l₁, x.1 < e.1) ∧ ∀ x, l₂.head? = some x → e.1 ≤ x.1 := by
  refine ⟨l.takeWhile fun x => x.1 < e.1, l.dropWhile fun x => x.1 < e.1,
    List.takeWhile_append_dropWhile.symm, ?_, ?_⟩
  · intro x member
    have holds := List.mem_takeWhile_imp member
    exact of_decide_eq_true holds
  · intro x head
    have fails := List.head?_dropWhile_not (fun x : κ × β => decide (x.1 < e.1)) l
    rw [head] at fails
    exact not_lt.mp (by simpa using fails)

/-- Smaller elements stay before the new one. -/
theorem insertUp_append_left {l₁ : List (κ × β)} (l₂ : List (κ × β))
    (below : ∀ x ∈ l₁, x.1 < e.1) : insertUp e (l₁ ++ l₂) = l₁ ++ insertUp e l₂ := by
  rcases exists_insertUp_split e l₂ with ⟨m₁, m₂, rfl, less, head⟩
  have whole : ∀ x ∈ l₁ ++ m₁, x.1 < e.1 := fun x member =>
    (List.mem_append.mp member).elim (below x) (less x)
  rw [← List.append_assoc, (insertUp_split whole head).2, (insertUp_split less head).2,
    List.append_assoc]

/-- The elements from one that is not smaller on stay after the new one. -/
theorem insertUp_append_right (l₁ : List (κ × β)) {l₂ : List (κ × β)}
    (above : ∀ x, l₂.head? = some x → e.1 ≤ x.1) :
    insertUp e (l₁ ++ l₂) = insertUp e l₁ ++ l₂ := by
  rcases exists_insertUp_split e l₁ with ⟨m₁, m₂, rfl, less, head⟩
  have head' : ∀ y, (m₂ ++ l₂).head? = some y → e.1 ≤ y.1 := by
    cases m₂ with
    | nil => exact above
    | cons z m₂ => exact head
  rw [List.append_assoc, (insertUp_split less head').2, (insertUp_split less head).2]
  simp

@[simp] theorem length_insertUp : (insertUp e l).length = l.length + 1 := by
  rcases exists_insertUp_split e l with ⟨l₁, l₂, rfl, below, above⟩
  rw [(insertUp_split below above).2]
  simp only [List.length_append, List.length_cons]
  omega

/-- The list with the pair that is still to be inserted, if there is one. -/
def mergeUp : Option (κ × β) → List (κ × β) → List (κ × β)
  | none, l => l
  | some e, l => insertUp e l

@[simp] theorem mergeUp_none : mergeUp none l = l := rfl

@[simp] theorem mergeUp_some : mergeUp (some e) l = insertUp e l := rfl

@[simp] theorem mergeUp_nil {insert : Option (κ × β)} : mergeUp insert [] = insert.toList := by
  cases insert <;> rfl

@[simp] theorem length_mergeUp {insert : Option (κ × β)} :
    (mergeUp insert l).length = l.length + insert.toList.length := by
  cases insert with
  | none => rfl
  | some e => exact length_insertUp

end Arrays

/-! ## Removal -/

omit [LinearOrder κ] in
theorem Removed.perm (removed : Removed key v l l') : l.Perm ((key, v) :: l') := by
  rcases removed with ⟨l₁, l₂, rfl, rfl⟩
  exact List.perm_middle

omit [LinearOrder κ] in
theorem Removed.length_eq (removed : Removed key v l l') : l.length = l'.length + 1 := by
  simpa using removed.perm.length_eq

theorem Removed.sorted (removed : Removed key v l l') (sorted : SortedPairs l) :
    SortedPairs l' := by
  rcases removed with ⟨l₁, l₂, rfl, rfl⟩
  exact List.Pairwise.sublist (List.Sublist.append_left (List.sublist_cons_self _ _) l₁) sorted

omit [LinearOrder κ] in
theorem Removed.mem (removed : Removed key v l l') : (key, v) ∈ l :=
  removed.perm.mem_iff.mpr (by simp)

omit [LinearOrder κ] in
/-- Removing from a part removes from the whole. -/
theorem Removed.context (removed : Removed key v l l') (pre post : List (κ × β)) :
    Removed key v (pre ++ l ++ post) (pre ++ l' ++ post) := by
  rcases removed with ⟨l₁, l₂, rfl, rfl⟩
  exact ⟨pre ++ l₁, l₂ ++ post, by simp, by simp⟩

omit [LinearOrder κ] in
/-- A first pair with another key stays the first one. -/
theorem Removed.head (removed : Removed key v (x :: l) l') (other : x.1 ≠ key) :
    ∃ l'', l' = x :: l'' := by
  rcases removed with ⟨l₁, l₂, split, rfl⟩
  cases l₁ with
  | nil =>
      cases split
      exact absurd rfl other
  | cons y l₁ =>
      cases split
      exact ⟨_, rfl⟩

/-! ## The abstract multimap -/

/-- An operation with the answer that its caller gets. -/
inductive Answered (κ β : Type*) where
  | inserted (key : κ) (value : β)
  | removed (key : κ) (answer : β)
  | found (key : κ) (answer : β)

/-- The pairs after an operation, undefined where the answer is wrong. The value `missing` stands for
a key that is not there. -/
def Answered.apply [DecidableEq β] (missing : β) (m : Multiset (κ × β)) :
    Answered κ β → Option (Multiset (κ × β))
  | .inserted key value => some ((key, value) ::ₘ m)
  | .removed key answer =>
    if (key, answer) ∈ m then some (m.erase (key, answer))
    else if answer = missing ∧ ∀ x ∈ m, x.1 ≠ key then some m
    else none
  | .found key answer =>
    if (key, answer) ∈ m ∨ answer = missing ∧ ∀ x ∈ m, x.1 ≠ key then some m else none

section Abstract

variable [DecidableEq β] {missing : β}

theorem Inserted.answered (inserted : Inserted e l l') :
    (Answered.inserted e.1 e.2).apply missing (l : Multiset (κ × β)) = some (l' : Multiset _) :=
  congrArg some (Multiset.coe_eq_coe.mpr inserted.perm).symm

theorem Removed.answered (removed : Removed key v l l') :
    (Answered.removed key v).apply missing (l : Multiset (κ × β)) = some (l' : Multiset _) := by
  have member : (key, v) ∈ (l : Multiset (κ × β)) := removed.mem
  have split : (l : Multiset (κ × β)) = (key, v) ::ₘ (l' : Multiset (κ × β)) :=
    Multiset.coe_eq_coe.mpr removed.perm
  rw [Answered.apply, if_pos member, split, Multiset.erase_cons_head]

/-- A removal or a lookup of a key that is not there. -/
theorem Answered.apply_missing (none : ∀ x ∈ l, x.1 ≠ key) :
    (Answered.removed key missing).apply missing (l : Multiset (κ × β)) = some (l : Multiset _) := by
  have outside : (key, missing) ∉ (l : Multiset (κ × β)) := fun member => none _ member rfl
  rw [Answered.apply, if_neg outside, if_pos ⟨rfl, none⟩]

end Abstract

end Rma.Base
