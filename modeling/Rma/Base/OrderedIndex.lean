import Mathlib.Tactic
import Mathlib.Data.List.MinMax

/-!
# Ordered indexes

An ordered index is a map from keys to values that is searched for the greatest
key not above a given one. A component that uses one issues calls to it; the
entries of the index are those the calls describe, as long as every insertion is
of a new key and every removal of an entry (`Proper`). `Correct` asks an
implementation to answer a search from these entries.

`Holds calls l` says that the calls are proper and describe exactly the entries of
the list `l`. The rules `insert`, `remove`, `find_eq_some` and `find_eq_none` are all
a user of an index needs.
-/

namespace Rma.Base

/-- The operations of an index whose state is `τ`. -/
structure OrderedIndex (κ α τ : Type) where
  empty : τ
  insert : τ → κ → α → τ
  remove : τ → κ → α → τ
  findLessOrEqual : τ → κ → Option α

namespace OrderedIndex

/-- A call that changes the index. -/
inductive Call (κ α : Type) where
  | insert (key : κ) (value : α)
  | remove (key : κ) (value : α)
  deriving DecidableEq, Repr

variable {κ α τ : Type}

/-- The index after some calls, the last one first. -/
def after (index : OrderedIndex κ α τ) : List (Call κ α) → τ
  | [] => index.empty
  | .insert key value :: calls => index.insert (index.after calls) key value
  | .remove key value :: calls => index.remove (index.after calls) key value

variable [LinearOrder κ]

/-- The entries that some calls describe. -/
def entries : List (Call κ α) → κ → Option α
  | [] => fun _ => none
  | .insert key value :: calls => Function.update (entries calls) key (some value)
  | .remove key _ :: calls => Function.update (entries calls) key none

/-- Every insertion is of a new key and every removal of an entry. -/
def Proper : List (Call κ α) → Prop
  | [] => True
  | .insert key _ :: calls => entries calls key = none ∧ Proper calls
  | .remove key value :: calls => entries calls key = some value ∧ Proper calls

instance decidableProper [DecidableEq α] : (calls : List (Call κ α)) → Decidable (Proper calls)
  | [] => isTrue trivial
  | .insert key _ :: calls =>
    have := decidableProper calls
    inferInstanceAs (Decidable (entries calls key = none ∧ Proper calls))
  | .remove key value :: calls =>
    have := decidableProper calls
    inferInstanceAs (Decidable (entries calls key = some value ∧ Proper calls))

/-- The calls are proper and describe the entries of the list. -/
structure Holds (calls : List (Call κ α)) (l : List (κ × α)) : Prop where
  proper : Proper calls
  entries : ∀ key value, entries calls key = some value ↔ (key, value) ∈ l

section Entries

variable {calls : List (Call κ α)} {l l' : List (κ × α)} {key : κ} {value : α}

theorem Holds.nil : Holds ([] : List (Call κ α)) [] :=
  ⟨trivial, fun _ _ => ⟨fun h => (nomatch h), fun h => (nomatch h)⟩⟩

/-- The order of the entries does not matter. -/
theorem Holds.perm (holds : Holds calls l) (perm : l.Perm l') : Holds calls l' :=
  ⟨holds.proper, fun k v => (holds.entries k v).trans perm.mem_iff⟩

/-- A new key can be inserted. -/
theorem Holds.insert (holds : Holds calls l) (value : α) (new : ∀ e ∈ l, e.1 ≠ key) :
    Holds (.insert key value :: calls) ((key, value) :: l) := by
  refine ⟨⟨?_, holds.proper⟩, fun k v => ?_⟩
  · rw [Option.eq_none_iff_forall_ne_some]
    exact fun v present => new _ ((holds.entries key v).mp present) rfl
  · rw [OrderedIndex.entries, List.mem_cons]
    by_cases same : k = key
    · subst same
      rw [Function.update_self, Option.some_inj, Prod.mk.injEq]
      constructor
      · exact fun h => Or.inl ⟨rfl, h.symm⟩
      · rintro (h | h)
        · exact h.2.symm
        · exact absurd rfl (new _ h)
    · rw [Function.update_of_ne same, holds.entries]
      exact ⟨Or.inr, fun h => h.resolve_left fun h => same (congrArg Prod.fst h)⟩

/-- An entry can be removed. -/
theorem Holds.remove (holds : Holds calls ((key, value) :: l)) (others : ∀ e ∈ l, e.1 ≠ key) :
    Holds (.remove key value :: calls) l := by
  refine ⟨⟨(holds.entries key value).mpr (by simp), holds.proper⟩, fun k v => ?_⟩
  rw [OrderedIndex.entries]
  by_cases same : k = key
  · subst same
    rw [Function.update_self]
    exact ⟨fun h => (nomatch h), fun h => absurd rfl (others _ h)⟩
  · rw [Function.update_of_ne same, holds.entries, List.mem_cons]
    exact ⟨fun h => h.resolve_left fun h => same (congrArg Prod.fst h), Or.inr⟩

end Entries

/-! ## Searches -/

section Search

/-- The value of the greatest key that is not above `key`, if there is one. -/
def IsFloor (entries : κ → Option α) (key : κ) : Option α → Prop
  | none => ∀ k ≤ key, entries k = none
  | some value =>
    ∃ k ≤ key, entries k = some value ∧ ∀ k', k < k' → k' ≤ key → entries k' = none

/-- After proper calls a search is answered from the entries they describe. -/
def Correct (index : OrderedIndex κ α τ) : Prop :=
  ∀ calls, Proper calls → ∀ key,
    IsFloor (entries calls) key (index.findLessOrEqual (index.after calls) key)

variable {index : OrderedIndex κ α τ} {calls : List (Call κ α)} {key k : κ} {value : α}

/-- A search finds the last of the entries that is not above the key. -/
theorem Correct.find_eq_some (correct : index.Correct) {pre post : List (κ × α)}
    (holds : Holds calls (pre ++ (k, value) :: post)) (before : ∀ e ∈ pre, e.1 < k)
    (at_most : k ≤ key) (after : ∀ e ∈ post, key < e.1) :
    index.findLessOrEqual (index.after calls) key = some value := by
  have floor := correct calls holds.proper key
  have present := (holds.entries k value).mpr (by simp)
  rcases found : index.findLessOrEqual (index.after calls) key with _ | v
  · rw [found] at floor
    exact absurd present (by rw [floor k at_most]; exact nofun)
  · rw [found] at floor
    rcases floor with ⟨k', le, entry, greatest⟩
    have member := (holds.entries k' v).mp entry
    simp only [List.mem_append, List.mem_cons, Prod.mk.injEq] at member
    rcases member with member | ⟨_, same⟩ | member
    · exact absurd present (by rw [greatest k (before _ member) at_most]; exact nofun)
    · rw [same]
    · exact absurd (after _ member) (not_lt.mpr le)

/-- A search finds nothing when all the entries are above the key. -/
theorem Correct.find_eq_none (correct : index.Correct) {l : List (κ × α)} (holds : Holds calls l)
    (above : ∀ e ∈ l, key < e.1) : index.findLessOrEqual (index.after calls) key = none := by
  have floor := correct calls holds.proper key
  rcases found : index.findLessOrEqual (index.after calls) key with _ | v
  · rfl
  · rw [found] at floor
    rcases floor with ⟨k', le, entry, _⟩
    exact absurd (above _ ((holds.entries k' v).mp entry)) (not_lt.mpr le)

/-- An index that keeps its entries in a list. -/
def assoc (κ α : Type) [LinearOrder κ] : OrderedIndex κ α (List (κ × α)) where
  empty := []
  insert l key value := (key, value) :: l
  remove l key _ := l.filter fun e => e.1 ≠ key
  findLessOrEqual l key := ((l.filter fun e => e.1 ≤ key).argmax Prod.fst).map Prod.snd

/-- The list holds the entries that proper calls describe. -/
theorem mem_after_assoc (proper : Proper calls) :
    (k, value) ∈ (assoc κ α).after calls ↔ entries calls k = some value := by
  induction calls generalizing k value with
  | nil => exact ⟨fun h => (nomatch h), fun h => (nomatch h)⟩
  | cons call calls ih =>
      cases call with
      | insert key v =>
          change (k, value) ∈ (key, v) :: (assoc κ α).after calls ↔ _
          rw [List.mem_cons, ih proper.2, entries, Prod.mk.injEq]
          by_cases same : k = key
          · subst same
            rw [Function.update_self, Option.some_inj, proper.1]
            exact ⟨fun h => h.elim (fun h => h.2.symm) nofun, fun h => Or.inl ⟨rfl, h.symm⟩⟩
          · rw [Function.update_of_ne same]
            exact ⟨fun h => h.resolve_left fun h => same h.1, Or.inr⟩
      | remove key v =>
          change (k, value) ∈ ((assoc κ α).after calls).filter (fun e => e.1 ≠ key) ↔ _
          rw [List.mem_filter, ih proper.2, entries, decide_eq_true_iff]
          by_cases same : k = key
          · subst same
            rw [Function.update_self]
            exact ⟨fun h => absurd rfl h.2, nofun⟩
          · rw [Function.update_of_ne same]
            exact ⟨And.left, fun h => ⟨h, same⟩⟩

theorem assoc_correct : (assoc κ α).Correct := by
  intro calls proper key
  change IsFloor _ _ ((List.argmax Prod.fst (((assoc κ α).after calls).filter
    fun e => e.1 ≤ key)).map Prod.snd)
  rcases found : List.argmax Prod.fst (((assoc κ α).after calls).filter fun e => e.1 ≤ key) with
    _ | ⟨k, v⟩
  · have nothing := List.argmax_eq_none.mp found
    intro k le
    rw [Option.eq_none_iff_forall_ne_some]
    intro v entry
    have member := (List.mem_filter (p := fun e : κ × α => decide (e.1 ≤ key))).mpr
      ⟨(mem_after_assoc proper).mpr entry, decide_eq_true le⟩
    rw [nothing] at member
    cases member
  · have member := List.mem_filter.mp (List.argmax_mem found)
    refine ⟨k, of_decide_eq_true member.2, (mem_after_assoc proper).mp member.1, ?_⟩
    intro k' greater le
    rw [Option.eq_none_iff_forall_ne_some]
    intro v' entry
    have inside := (List.mem_filter (p := fun e : κ × α => decide (e.1 ≤ key))).mpr
      ⟨(mem_after_assoc proper).mpr entry, decide_eq_true le⟩
    exact absurd (List.le_of_mem_argmax inside found) (not_le.mpr greater)

end Search

end OrderedIndex

end Rma.Base
