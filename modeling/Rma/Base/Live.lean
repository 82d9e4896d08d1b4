import Mathlib.Tactic

/-!
# Live entries of a vector

The entries of a vector are not removed but marked: `p` says which ones are live. A cursor
skips the others, backwards to the last live entry before a position, or onwards to the first
one from a position on. `LastLive` and `FirstLive` say where it stops; what is live besides
does not change when that entry is marked.
-/

namespace Rma.Base

variable {α : Type*} {p : α → Bool} {l : List α} {i k : Nat} {x y : α}

/-- The last live entry before position `i` is `x`, at `k`. -/
structure LastLive (p : α → Bool) (l : List α) (i k : Nat) (x : α) : Prop where
  before : k < i
  entry : l[k]? = some x
  live : p x
  all : (l.take i).filter p = (l.take k).filter p ++ [x]

/-- The first live entry from position `i` on is `x`, at `k`. -/
structure FirstLive (p : α → Bool) (l : List α) (i k : Nat) (x : α) : Prop where
  after : i ≤ k
  entry : l[k]? = some x
  live : p x
  all : (l.drop i).filter p = x :: (l.drop (k + 1)).filter p

/-- The entries before the next position. -/
theorem filter_take_succ (entry : l[k]? = some x) :
    (l.take (k + 1)).filter p = (l.take k).filter p ++ if p x then [x] else [] := by
  rw [List.take_add_one, entry, Option.toList_some, List.filter_append]
  congr 1
  cases live : p x <;> simp [live]

theorem filter_drop (entry : l[k]? = some x) :
    (l.drop k).filter p = (if p x then [x] else []) ++ (l.drop (k + 1)).filter p := by
  obtain ⟨inside, rfl⟩ := List.getElem?_eq_some_iff.mp entry
  rw [List.drop_eq_getElem_cons inside, List.filter_cons]
  split <;> simp_all

/-- The live entry just before the position. -/
theorem LastLive.here (entry : l[k]? = some x) (live : p x) : LastLive p l (k + 1) k x :=
  ⟨Nat.lt_succ_self k, entry, live, by rw [filter_take_succ entry, if_pos live]⟩

/-- An entry that is not live is skipped. -/
theorem LastLive.skip (entry : l[i]? = some y) (dead : ¬p y) (last : LastLive p l i k x) :
    LastLive p l (i + 1) k x :=
  ⟨Nat.lt_succ_of_lt last.before, last.entry, last.live, by
    rw [filter_take_succ entry, if_neg dead, List.append_nil, last.all]⟩

theorem FirstLive.here (entry : l[k]? = some x) (live : p x) : FirstLive p l k k x :=
  ⟨le_rfl, entry, live, by
    rw [filter_drop entry, if_pos live]
    rfl⟩

theorem FirstLive.skip (entry : l[i]? = some y) (dead : ¬p y) (first : FirstLive p l (i + 1) k x) :
    FirstLive p l i k x :=
  ⟨Nat.le_of_succ_le first.after, first.entry, first.live, by
    rw [filter_drop entry, if_neg dead, List.nil_append, first.all]⟩

/-- No entry is live in between. -/
theorem LastLive.mono {j : Nat} (last : LastLive p l j k x) (le : j ≤ i)
    (same : (l.take i).filter p = (l.take j).filter p) : LastLive p l i k x :=
  ⟨last.before.trans_le le, last.entry, last.live, same.trans last.all⟩

theorem FirstLive.mono {j : Nat} (first : FirstLive p l j k x) (le : i ≤ j)
    (same : (l.drop i).filter p = (l.drop j).filter p) : FirstLive p l i k x :=
  ⟨le.trans first.after, first.entry, first.live, same.trans first.all⟩

/-- Only the entries before the position matter. -/
theorem LastLive.congr {m : List α} (last : LastLive p l i k x) (same : m.take i = l.take i) :
    LastLive p m i k x := by
  have le := last.before.le
  refine ⟨last.before, ?_, last.live, ?_⟩
  · rw [← List.getElem?_take_of_lt last.before, same, List.getElem?_take_of_lt last.before,
      last.entry]
  · rw [← Nat.min_eq_left le, ← List.take_take, same, List.take_take, Nat.min_eq_left le, last.all]

/-- Only the entries from the position on matter. -/
theorem FirstLive.congr {m : List α} (first : FirstLive p l i k x) (same : m.drop i = l.drop i) :
    FirstLive p m i k x := by
  obtain ⟨n, rfl⟩ := Nat.exists_eq_add_of_le first.after
  refine ⟨first.after, ?_, first.live, ?_⟩
  · rw [← List.getElem?_drop, same, List.getElem?_drop, first.entry]
  · have later : m.drop (i + n + 1) = l.drop (i + n + 1) := by
      rw [Nat.add_assoc, ← List.drop_drop, same, List.drop_drop]
    rw [same, first.all, later]

/-- The last live entry is marked. -/
theorem LastLive.kill (last : LastLive p l i k x) (dead : ¬p y) :
    ((l.set k y).take i).filter p = (l.take k).filter p := by
  obtain ⟨n, rfl⟩ := Nat.exists_eq_add_of_lt last.before
  obtain ⟨inside, entry⟩ := List.getElem?_eq_some_iff.mp last.entry
  have split : ∀ m : List α, m.take (k + n + 1) = m.take k ++ (m.drop k).take (n + 1) := by
    intro m
    rw [Nat.add_assoc, List.take_add]
  have all := last.all
  rw [split, List.filter_append, List.append_cancel_left_eq, List.drop_eq_getElem_cons inside,
    List.take_succ_cons, entry, List.filter_cons_of_pos last.live] at all
  have none := (List.cons_eq_cons.mp all).2
  have here : k < (l.set k y).length := by rwa [List.length_set]
  rw [split, List.filter_append, List.drop_eq_getElem_cons here, List.take_succ_cons,
    List.getElem_set_self, List.filter_cons_of_neg dead, List.drop_set_of_lt (Nat.lt_succ_self k),
    none, List.append_nil, List.take_set_of_le le_rfl]

/-- The first live entry is marked. -/
theorem FirstLive.kill (first : FirstLive p l i k x) (dead : ¬p y) :
    ((l.set k y).drop i).filter p = (l.drop (k + 1)).filter p := by
  obtain ⟨n, rfl⟩ := Nat.exists_eq_add_of_le first.after
  obtain ⟨inside, entry⟩ := List.getElem?_eq_some_iff.mp first.entry
  have split : ∀ m : List α, m.drop i = (m.drop i).take n ++ m.drop (i + n) := by
    intro m
    rw [← List.drop_drop, List.take_append_drop]
  have all := first.all
  rw [split, List.filter_append, filter_drop first.entry, if_pos first.live] at all
  have none : ((l.drop i).take n).filter p = [] := by
    have sizes := congrArg List.length all
    simp only [List.length_append, List.length_cons, List.length_nil] at sizes
    exact List.eq_nil_of_length_eq_zero (by omega)
  have here : (l.set (i + n) y)[i + n]? = some y := by
    rw [List.getElem?_set_self inside]
  have same : ((l.set (i + n) y).drop i).take n = (l.drop i).take n := by
    rw [List.drop_set, if_neg (by omega), Nat.add_sub_cancel_left, List.take_set_of_le le_rfl]
  rw [split, List.filter_append, same, none, List.nil_append, filter_drop here, if_neg dead,
    List.nil_append, List.drop_set_of_lt (Nat.lt_succ_self _)]

end Rma.Base
