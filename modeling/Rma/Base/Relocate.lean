import Mathlib.Data.List.Nodup

/-!
# Moves through a buffer

Cells are moved in two passes: the first one takes what the sources hold into a buffer and
empties them, the second one writes the buffer to the destinations. A cell may be both a
source and a destination, whatever the order of the moves is, but a source is read once: a
second move from it finds it empty.
-/

namespace Rma.Base

variable {α : Type}

/-- The first pass: what the sources hold, and the cells without it. -/
def takeOut (empty : α) : (moves : List (Nat × Nat)) → (cells : Nat → α) → List α × (Nat → α)
  | [], cells => ([], cells)
  | move :: moves, cells =>
    let rest := takeOut empty moves (Function.update cells move.1 empty)
    (cells move.1 :: rest.1, rest.2)

/-- The second pass. -/
def putBack : (moves : List (Nat × Nat)) → (buffer : List α) → (cells : Nat → α) → Nat → α
  | move :: moves, a :: buffer, cells =>
    putBack moves buffer (Function.update cells move.2 a)
  | _, _, cells => cells

/-- Both passes. -/
def relocate (empty : α) (moves : List (Nat × Nat)) (cells : Nat → α) : Nat → α :=
  let taken := takeOut empty moves cells
  putBack moves taken.1 taken.2

section Passes

variable {empty : α} {moves : List (Nat × Nat)} {cells : Nat → α} {x : Nat}

@[simp] theorem length_takeOut (moves : List (Nat × Nat)) (cells : Nat → α) :
    (takeOut empty moves cells).1.length = moves.length := by
  induction moves generalizing cells with
  | nil => rfl
  | cons move moves ih => simp [takeOut, ih]

/-- The first pass empties the sources. -/
theorem takeOut_cells (moves : List (Nat × Nat)) (cells : Nat → α) (x : Nat) :
    (takeOut empty moves cells).2 x = if x ∈ moves.map Prod.fst then empty else cells x := by
  induction moves generalizing cells with
  | nil => simp [takeOut]
  | cons move moves ih =>
      simp only [takeOut, ih, List.map_cons, List.mem_cons]
      by_cases here : x = move.1
      · subst here
        simp
      · rw [Function.update_of_ne here]
        simp only [here, false_or]

theorem takeOut_append (before after : List (Nat × Nat)) (cells : Nat → α) :
    (takeOut empty (before ++ after) cells).1 =
      (takeOut empty before cells).1 ++ (takeOut empty after (takeOut empty before cells).2).1 := by
  induction before generalizing cells with
  | nil => rfl
  | cons move before ih => simp [takeOut, ih]

theorem putBack_append {before after : List (Nat × Nat)} {first second : List α}
    (long : first.length = before.length) (cells : Nat → α) :
    putBack (before ++ after) (first ++ second) cells =
      putBack after second (putBack before first cells) := by
  induction before generalizing first cells with
  | nil =>
      rw [List.length_nil, List.length_eq_zero_iff] at long
      subst long
      rfl
  | cons move before ih =>
      cases first with
      | nil => cases long
      | cons a first => exact ih (Nat.succ.inj long) _

/-- The second pass writes the destinations only. -/
theorem putBack_of_notMem {buffer : List α} (other : x ∉ moves.map Prod.snd) :
    putBack moves buffer cells x = cells x := by
  induction moves generalizing buffer cells with
  | nil => rfl
  | cons move moves ih =>
      simp only [List.map_cons, List.mem_cons, not_or] at other
      cases buffer with
      | nil => rfl
      | cons a buffer =>
          rw [putBack, ih other.2, Function.update_of_ne other.1]

/-- A cell that is not a destination is emptied, if it is a source. -/
theorem relocate_of_notMem (other : x ∉ moves.map Prod.snd) :
    relocate empty moves cells x = if x ∈ moves.map Prod.fst then empty else cells x := by
  rw [relocate, putBack_of_notMem other, takeOut_cells]

/-- A destination gets what its source holds, unless an earlier move has taken it. -/
theorem relocate_of_mem {before after : List (Nat × Nat)} {move : Nat × Nat}
    (last : move.2 ∉ after.map Prod.snd) :
    relocate empty (before ++ move :: after) cells move.2 =
      if move.1 ∈ before.map Prod.fst then empty else cells move.1 := by
  rw [relocate, takeOut_append, putBack_append (length_takeOut before cells), takeOut, putBack,
    putBack_of_notMem last, Function.update_self, takeOut_cells]

end Passes

/-! ## Moves with distinct destinations -/

section Distinct

variable {empty : α} {moves : List (Nat × Nat)} {cells : Nat → α}

/-- The moves that are carried out: those that do not stay where they are. -/
def proper (moves : List (Nat × Nat)) : List (Nat × Nat) :=
  moves.filter fun move => move.1 ≠ move.2

theorem mem_proper {move : Nat × Nat} :
    move ∈ proper moves ↔ move ∈ moves ∧ move.1 ≠ move.2 := by
  simp [proper]

theorem proper_append (before after : List (Nat × Nat)) :
    proper (before ++ after) = proper before ++ proper after :=
  List.filter_append ..

/-- Whether a move stays does not depend on where the cells begin. -/
theorem proper_shift (start : Nat) (moves : List (Nat × Nat)) :
    (proper moves).map (fun m => (start + m.1, start + m.2)) =
      proper (moves.map fun m => (start + m.1, start + m.2)) := by
  unfold proper
  rw [List.filter_map]
  congr 1
  refine List.filter_congr fun m _ => ?_
  simp

theorem eq_of_destination (distinct : (moves.map Prod.snd).Nodup) {m n : Nat × Nat}
    (hm : m ∈ moves) (hn : n ∈ moves) (same : m.2 = n.2) : m = n :=
  List.inj_on_of_nodup_map distinct hm hn same

/-- A move that stays where it is: its cell is emptied if another move takes from it. -/
theorem relocate_self (distinct : (moves.map Prod.snd).Nodup) {m : Nat × Nat} (hm : m ∈ moves)
    (stays : m.1 = m.2) :
    relocate empty (proper moves) cells m.2 =
      if m.2 ∈ (proper moves).map Prod.fst then empty else cells m.2 := by
  refine relocate_of_notMem fun written => ?_
  obtain ⟨n, hn, same⟩ := List.mem_map.mp written
  obtain ⟨member, leaves⟩ := mem_proper.mp hn
  have : n = m := eq_of_destination distinct member hm same
  subst this
  exact leaves stays

/-- **Moves through a buffer.** Let the destinations be distinct. Every destination then holds
what its source held exactly when the sources of more than one move are empty. -/
theorem relocate_follows (distinct : (moves.map Prod.snd).Nodup) :
    (∀ m ∈ moves, relocate empty (proper moves) cells m.2 = cells m.1) ↔
      ∀ m ∈ moves, ∀ n ∈ moves, m.1 = n.1 → m ≠ n → cells m.1 = empty := by
  have sublist : ((proper moves).map Prod.snd).Nodup :=
    distinct.sublist ((List.filter_sublist (l := moves)).map Prod.snd)
  have fresh : ∀ before m after, proper moves = before ++ m :: after →
      m.2 ∉ after.map Prod.snd := by
    intro before m after cut
    rw [cut, List.map_append, List.map_cons] at sublist
    exact (List.nodup_cons.mp sublist.of_append_right).1
  have earlier : ∀ before m after, proper moves = before ++ m :: after →
      relocate empty (proper moves) cells m.2 =
        if m.1 ∈ before.map Prod.fst then empty else cells m.1 := by
    intro before m after cut
    rw [cut]
    exact relocate_of_mem (fresh before m after cut)
  constructor
  · intro follows m hm n hn same differ
    by_cases staysM : m.1 = m.2
    · have leavesN : n.1 ≠ n.2 := fun staysN =>
        differ (eq_of_destination distinct hm hn (by omega))
      have taken : m.2 ∈ (proper moves).map Prod.fst :=
        List.mem_map.mpr ⟨n, mem_proper.mpr ⟨hn, leavesN⟩, by omega⟩
      rw [← follows m hm, relocate_self distinct hm staysM, if_pos taken]
    by_cases staysN : n.1 = n.2
    · have taken : n.2 ∈ (proper moves).map Prod.fst :=
        List.mem_map.mpr ⟨m, mem_proper.mpr ⟨hm, staysM⟩, by omega⟩
      rw [same, ← follows n hn, relocate_self distinct hn staysN, if_pos taken]
    -- both are carried out, and the later one finds the source empty
    obtain ⟨before, after, cut⟩ := List.append_of_mem (mem_proper.mpr ⟨hm, staysM⟩)
    have other : n ∈ before ++ m :: after := cut ▸ mem_proper.mpr ⟨hn, staysN⟩
    rcases List.mem_append.mp other with inBefore | inAfter
    · rw [← follows m hm, earlier before m after cut,
        if_pos (List.mem_map.mpr ⟨n, inBefore, same.symm⟩)]
    · have inAfter : n ∈ after := (List.mem_cons.mp inAfter).resolve_left (Ne.symm differ)
      obtain ⟨middle, rest, cutAfter⟩ := List.append_of_mem inAfter
      have cut' : proper moves = (before ++ m :: middle) ++ n :: rest := by
        rw [cut, cutAfter, List.append_assoc, List.cons_append]
      rw [same, ← follows n hn, earlier _ n rest cut',
        if_pos (List.mem_map.mpr ⟨m, by simp, same⟩)]
  · intro once m hm
    by_cases stays : m.1 = m.2
    · rw [relocate_self distinct hm stays]
      split
      · next taken =>
          obtain ⟨n, hn, same⟩ := List.mem_map.mp taken
          obtain ⟨member, leaves⟩ := mem_proper.mp hn
          refine (once m hm n member (by omega) ?_).symm
          rintro rfl
          exact leaves stays
      · rw [stays]
    · obtain ⟨before, after, cut⟩ := List.append_of_mem (mem_proper.mpr ⟨hm, stays⟩)
      rw [earlier before m after cut]
      split
      · next taken =>
          obtain ⟨n, hn, same⟩ := List.mem_map.mp taken
          have member : n ∈ moves := (mem_proper.mp (cut ▸ List.mem_append_left _ hn)).1
          refine (once m hm n member same.symm ?_).symm
          rintro rfl
          rw [cut, List.map_append, List.map_cons] at sublist
          exact (List.disjoint_of_nodup_append sublist) (List.mem_map_of_mem hn)
            List.mem_cons_self
      · rfl

/-- A source that is not a destination ends empty. -/
theorem relocate_source {m : Nat × Nat} (hm : m ∈ moves) (free : ∀ n ∈ moves, n.2 ≠ m.1) :
    relocate empty (proper moves) cells m.1 = empty := by
  rw [relocate_of_notMem, if_pos]
  · exact List.mem_map.mpr ⟨m, mem_proper.mpr ⟨hm, (free m hm).symm⟩, rfl⟩
  · intro written
    obtain ⟨n, hn, same⟩ := List.mem_map.mp written
    exact free n (mem_proper.mp hn).1 same

/-- The other cells are kept. -/
theorem relocate_other {x : Nat} (free : ∀ n ∈ moves, x ≠ n.1 ∧ x ≠ n.2) :
    relocate empty (proper moves) cells x = cells x := by
  rw [relocate_of_notMem, if_neg]
  · intro taken
    obtain ⟨n, hn, same⟩ := List.mem_map.mp taken
    exact (free n (mem_proper.mp hn).1).1 same.symm
  · intro written
    obtain ⟨n, hn, same⟩ := List.mem_map.mp written
    exact (free n (mem_proper.mp hn).1).2 same.symm

end Distinct

end Rma.Base
