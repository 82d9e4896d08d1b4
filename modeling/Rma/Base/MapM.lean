import Mathlib.Tactic

/-!
# Results of a list

`List.mapM` of a partial function: what each element gives, and when the whole is defined.
-/

namespace Rma.Base

variable {α β : Type} {f : α → β} {g : α → Option β} {l : List α} {ys : List β}

/-- Results that are a function of the elements. -/
theorem mapM_eq_map (all : ∀ x ∈ l, g x = some (f x)) : l.mapM g = some (l.map f) := by
  induction l with
  | nil => rfl
  | cons x l ih =>
      rw [List.mapM_cons, all x List.mem_cons_self,
        ih fun y member => all y (List.mem_cons_of_mem _ member)]
      rfl

theorem mapM_cons_some {x : α} (found : (x :: l).mapM g = some ys) :
    ∃ y rest, g x = some y ∧ l.mapM g = some rest ∧ ys = y :: rest := by
  rw [List.mapM_cons] at found
  obtain ⟨y, first, found⟩ := Option.bind_eq_some_iff.mp found
  obtain ⟨rest, others, same⟩ := Option.bind_eq_some_iff.mp found
  exact ⟨y, rest, first, others, (Option.some.inj same).symm⟩

/-- The result of every element. -/
theorem exists_of_mapM (found : l.mapM g = some ys) {x : α} (member : x ∈ l) :
    ∃ y ∈ ys, g x = some y := by
  induction l generalizing ys with
  | nil => cases member
  | cons z l ih =>
      obtain ⟨y, rest, first, others, rfl⟩ := mapM_cons_some found
      rcases List.mem_cons.mp member with rfl | later
      · exact ⟨y, List.mem_cons_self, first⟩
      · obtain ⟨y', inside, same⟩ := ih others later
        exact ⟨y', List.mem_cons_of_mem _ inside, same⟩

/-- Where a result comes from. -/
theorem mem_of_mapM (found : l.mapM g = some ys) {y : β} (member : y ∈ ys) :
    ∃ x ∈ l, g x = some y := by
  induction l generalizing ys with
  | nil =>
      cases found
      cases member
  | cons z l ih =>
      obtain ⟨y', rest, first, others, rfl⟩ := mapM_cons_some found
      rcases List.mem_cons.mp member with rfl | later
      · exact ⟨z, List.mem_cons_self, first⟩
      · obtain ⟨x, inside, same⟩ := ih others later
        exact ⟨x, List.mem_cons_of_mem _ inside, same⟩

theorem flatMap_of_mapM {γ : Type} {e : α → List γ} {k : β → List γ}
    (found : l.mapM g = some ys) (same : ∀ x y, g x = some y → e x = k y) :
    l.flatMap e = ys.flatMap k := by
  induction l generalizing ys with
  | nil =>
      cases found
      rfl
  | cons z l ih =>
      obtain ⟨y, rest, first, others, rfl⟩ := mapM_cons_some found
      rw [List.flatMap_cons, List.flatMap_cons, same z y first, ih others]

/-- The results, one by one. -/
theorem map_of_mapM (found : l.mapM g = some ys) : l.map g = ys.map some := by
  induction l generalizing ys with
  | nil =>
      cases found
      rfl
  | cons z l ih =>
      obtain ⟨y, rest, first, others, rfl⟩ := mapM_cons_some found
      rw [List.map_cons, List.map_cons, first, ih others]

theorem mapM_length (found : l.mapM g = some ys) : ys.length = l.length := by
  induction l generalizing ys with
  | nil =>
      cases found
      rfl
  | cons z l ih =>
      obtain ⟨y, rest, -, others, rfl⟩ := mapM_cons_some found
      rw [List.length_cons, List.length_cons, ih others]

/-- The elements of a list by their positions. -/
theorem mapM_range {l : List α} {g : Nat → Option α}
    (each : ∀ i x, l[i]? = some x → g i = some x) : (List.range l.length).mapM g = some l := by
  induction l using List.reverseRecOn with
  | nil => rfl
  | append_singleton l x ih =>
      have front : (List.range l.length).mapM g = some l := by
        refine ih fun i y read => each i y ?_
        rwa [List.getElem?_append_left (List.getElem?_eq_some_iff.mp read).1]
      have last : g l.length = some x := each l.length x (by simp)
      rw [List.length_append, List.length_singleton, List.range_succ, List.mapM_append, front]
      simp [last]

end Rma.Base
