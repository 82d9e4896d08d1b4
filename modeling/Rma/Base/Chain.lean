import Mathlib.Tactic

/-!
# Doubly linked chains

`Links` holds the two pointers of every node of a heap; `Chain` says that the
nodes of a list are linked in both directions, with null pointers at the ends.
Inserting a node after another one and removing the successor of a node keep the
chain, in any context of nodes before and after.
-/

namespace Rma.Base

/-- The `next` and `previous` pointers, by address. -/
structure Links where
  next : Nat → Option Nat
  previous : Nat → Option Nat

namespace Links

/-- Link a new node `b` after the node `a`. -/
def insertAfter (links : Links) (a b : Nat) : Links :=
  let following := links.next a
  -- the new node first, then the successor, then the node itself
  let next := Function.update links.next b following
  let previous := match following with
    | some c => Function.update links.previous c (some b)
    | none => links.previous
  { next := Function.update next a (some b)
    previous := Function.update previous b (some a) }

/-- Unlink the node `b`, the successor of `a`. -/
def removeAfter (links : Links) (a b : Nat) : Links :=
  let following := links.next b
  { next := Function.update links.next a following
    previous := match following with
      | some c => Function.update links.previous c (some a)
      | none => links.previous }

/-- The nodes of the list are linked one to the other; `before` precedes the first
one and `after` follows the last one. -/
def Segment (links : Links) : Option Nat → List Nat → Option Nat → Prop
  | _, [], _ => True
  | before, a :: l, after =>
    links.previous a = before ∧ links.next a = l.head?.or after ∧ Segment links (some a) l after

/-- The nodes of the list are a whole chain. -/
structure Chain (links : Links) (l : List Nat) : Prop where
  nodup : l.Nodup
  linked : links.Segment none l none

/-- The addresses met from a node on, along `next`. -/
def walk (links : Links) : Nat → Option Nat → List Nat
  | 0, _ => []
  | _ + 1, none => []
  | count + 1, some a => a :: walk links count (links.next a)

variable {links links' : Links} {before after : Option Nat} {l pre post : List Nat} {a b : Nat}

theorem segment_append :
    links.Segment before (pre ++ post) after ↔
      links.Segment before pre (post.head?.or after) ∧
        links.Segment (pre.getLast?.or before) post after := by
  induction pre generalizing before with
  | nil => simp [Segment]
  | cons a pre ih =>
      cases pre with
      | nil => simp [Segment, and_assoc]
      | cons b pre =>
          have last : ((a :: b :: pre).getLast?).or before = ((b :: pre).getLast?).or (some a) := by
            simp [List.getLast?_eq_getLast_of_ne_nil]
          rw [List.cons_append, Segment, ih, last]
          simp [Segment, and_assoc]

/-- A segment depends on the pointers of its own nodes only. -/
theorem Segment.congr (segment : links.Segment before l after)
    (next : ∀ x, x ∈ l → links'.next x = links.next x)
    (previous : ∀ x, x ∈ l → links'.previous x = links.previous x) :
    links'.Segment before l after := by
  induction l generalizing before with
  | nil => trivial
  | cons a l ih =>
      rcases segment with ⟨back, forth, rest⟩
      exact ⟨(previous a (by simp)).trans back, (next a (by simp)).trans forth,
        ih rest (fun x hx => next x (by simp [hx])) fun x hx => previous x (by simp [hx])⟩

/-- A node inserted after a node of the chain becomes its successor. -/
theorem Chain.insertAfter (chain : links.Chain (pre ++ a :: post))
    (fresh : b ∉ pre ++ a :: post) : (links.insertAfter a b).Chain (pre ++ a :: b :: post) := by
  rcases chain with ⟨nodup, linked⟩
  rcases segment_append.mp linked with ⟨first, back, forth, rest⟩
  have nodup' : (pre ++ a :: b :: post).Nodup := by
    rw [List.nodup_append] at nodup ⊢
    simp only [List.mem_append, List.mem_cons, not_or] at fresh
    simp only [List.nodup_cons, List.mem_cons, not_or] at nodup ⊢
    refine ⟨nodup.1, ⟨⟨fun same => fresh.2.1 same.symm, nodup.2.1.1⟩, fresh.2.2, nodup.2.1.2⟩, ?_⟩
    intro x hx y hy same
    rcases hy with rfl | rfl | hy
    · exact nodup.2.2 x hx y (Or.inl rfl) same
    · exact fresh.1 (same ▸ hx)
    · exact nodup.2.2 x hx y (Or.inr hy) same
  simp only [List.mem_append, List.mem_cons, not_or] at fresh
  rw [List.nodup_append] at nodup
  simp only [List.nodup_cons, List.mem_cons] at nodup
  rcases nodup with ⟨_, ⟨aPost, postNodup⟩, apart⟩
  have aPre : a ∉ pre := fun member => apart a member a (Or.inl rfl) rfl
  have followingEq : links.next a = post.head? := by simpa using forth
  have nextOf : ∀ x, x ≠ a → x ≠ b → (links.insertAfter a b).next x = links.next x := by
    intro x notA notB
    simp [Links.insertAfter, Function.update_of_ne notA, Function.update_of_ne notB]
  have previousOf : ∀ x, x ≠ b → post.head? ≠ some x →
      (links.insertAfter a b).previous x = links.previous x := by
    intro x notB notHead
    simp only [Links.insertAfter, followingEq, Function.update_of_ne notB]
    cases head : post.head? with
    | none => rfl
    | some c => exact Function.update_of_ne (fun same => notHead (by rw [head, same])) _ _
  have headNotPre : ∀ x, x ∈ pre → post.head? ≠ some x := fun x member head =>
    apart x member x (Or.inr (List.mem_of_head? head)) rfl
  refine ⟨nodup', segment_append.mpr ⟨?_, ?_, ?_, ?_, ?_, ?_⟩⟩
  · apply Segment.congr first
    · exact fun x member => nextOf x (fun same => aPre (same ▸ member))
        fun same => fresh.1 (same ▸ member)
    · exact fun x member => previousOf x (fun same => fresh.1 (same ▸ member)) (headNotPre x member)
  · rw [previousOf a (fun same => fresh.2.1 same.symm) fun head => aPost (List.mem_of_head? head)]
    exact back
  · simp [Links.insertAfter]
  · simp [Links.insertAfter]
  · simp [Links.insertAfter, Function.update_of_ne fresh.2.1, followingEq]
  · cases post with
    | nil => trivial
    | cons c post =>
        rcases rest with ⟨_, forthC, rest⟩
        simp only [List.mem_cons, not_or] at aPost fresh
        simp only [List.nodup_cons] at postNodup
        refine ⟨?_, ?_, ?_⟩
        · simp [Links.insertAfter, followingEq, Function.update_of_ne (Ne.symm fresh.2.2.1)]
        · rw [nextOf c (Ne.symm aPost.1) (Ne.symm fresh.2.2.1)]
          exact forthC
        · apply Segment.congr rest
          · exact fun x member => nextOf x (fun same => aPost.2 (same ▸ member))
              fun same => fresh.2.2.2 (same ▸ member)
          · intro x member
            apply previousOf x fun same => fresh.2.2.2 (same ▸ member)
            intro head
            simp only [List.head?_cons, Option.some.injEq] at head
            exact postNodup.1 (head ▸ member)

/-- The successor of a node can be taken out of the chain. -/
theorem Chain.removeAfter (chain : links.Chain (pre ++ a :: b :: post)) :
    (links.removeAfter a b).Chain (pre ++ a :: post) := by
  rcases chain with ⟨nodup, linked⟩
  rcases segment_append.mp linked with ⟨first, back, _, _, forthB, rest⟩
  have nodup' : (pre ++ a :: post).Nodup := by
    apply List.Nodup.sublist _ nodup
    exact List.Sublist.append_left ((List.sublist_cons_self b post).cons_cons a) pre
  rw [List.nodup_append] at nodup
  simp only [List.nodup_cons, List.mem_cons, not_or] at nodup
  rcases nodup with ⟨_, ⟨⟨_, aPost⟩, bPost, postNodup⟩, apart⟩
  have aPre : a ∉ pre := fun member => apart a member a (Or.inl rfl) rfl
  have followingEq : links.next b = post.head? := by simpa using forthB
  have nextOf : ∀ x, x ≠ a → (links.removeAfter a b).next x = links.next x := by
    intro x notA
    simp [Links.removeAfter, Function.update_of_ne notA]
  have previousOf : ∀ x, post.head? ≠ some x →
      (links.removeAfter a b).previous x = links.previous x := by
    intro x notHead
    simp only [Links.removeAfter, followingEq]
    cases head : post.head? with
    | none => rfl
    | some c => exact Function.update_of_ne (fun same => notHead (by rw [head, same])) _ _
  have headNotPre : ∀ x, x ∈ pre → post.head? ≠ some x := fun x member head =>
    apart x member x (Or.inr (Or.inr (List.mem_of_head? head))) rfl
  refine ⟨nodup', segment_append.mpr ⟨?_, ?_, ?_, ?_⟩⟩
  · apply Segment.congr first
    · exact fun x member => nextOf x fun same => aPre (same ▸ member)
    · exact fun x member => previousOf x (headNotPre x member)
  · rw [previousOf a fun head => aPost (List.mem_of_head? head)]
    exact back
  · simp [Links.removeAfter, followingEq]
  · cases post with
    | nil => trivial
    | cons c post =>
        rcases rest with ⟨_, forthC, rest⟩
        simp only [List.mem_cons, not_or] at aPost
        simp only [List.nodup_cons] at postNodup
        refine ⟨?_, ?_, ?_⟩
        · simp [Links.removeAfter, followingEq]
        · rw [nextOf c (Ne.symm aPost.1)]
          exact forthC
        · apply Segment.congr rest
          · exact fun x member => nextOf x fun same => aPost.2 (same ▸ member)
          · intro x member
            apply previousOf x
            intro head
            simp only [List.head?_cons, Option.some.injEq] at head
            exact postNodup.1 (head ▸ member)

/-- Walking along `next` from the head meets the nodes of the chain in order. -/
theorem walk_segment (segment : links.Segment before l none) {count : Nat}
    (enough : l.length ≤ count) : links.walk count l.head? = l := by
  induction l generalizing before count with
  | nil => cases count <;> rfl
  | cons a l ih =>
      cases count with
      | zero => simp at enough
      | succ count =>
          rcases segment with ⟨_, forth, rest⟩
          rw [List.head?_cons, walk, forth, Option.or_none, ih rest (by simpa using enough)]

/-- In a chain `previous` is the inverse of `next`. -/
theorem Chain.previous_iff (chain : links.Chain l) (memA : a ∈ l) (memB : b ∈ l) :
    links.next a = some b ↔ links.previous b = some a := by
  rcases List.append_of_mem memA with ⟨preA, postA, rfl⟩
  rcases segment_append.mp chain.linked with ⟨_, _, forthA, restA⟩
  constructor
  · intro next
    rw [forthA, Option.or_none] at next
    rcases postA with _ | ⟨c, postA⟩
    · cases next
    · cases next
      exact restA.1
  · intro previous
    rcases List.append_of_mem memB with ⟨preB, postB, split⟩
    have linked := chain.linked
    rw [split] at linked
    rcases segment_append.mp linked with ⟨firstB, backB, _⟩
    rw [previous] at backB
    rcases List.eq_nil_or_concat preB with rfl | ⟨preB, c, rfl⟩
    · simp at backB
    · simp only [List.concat_eq_append, List.getLast?_concat, Option.some_or,
        Option.some.injEq] at backB
      subst backB
      rw [List.concat_eq_append, segment_append] at firstB
      simpa using firstB.2.2.1

end Links

end Rma.Base
