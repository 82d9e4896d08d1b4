import Mathlib.Data.List.Perm.Basic
import Mathlib.Data.Fintype.EquivFin
import Mathlib.Data.List.NodupEquivFin
import Mathlib.Tactic

/-!
# Shuffling cells through a workspace

The cells at a list of addresses are moved among these addresses, by a permutation of their
positions in the list: each cell is translated where it is and copied to its new position in a
workspace, and the workspace is then copied back. `relabel` tells where the cell of an
address goes.
-/

namespace Rma.Base

variable {α : Type}

/-- A permutation of the first `n` indices. -/
structure Permutes (n : Nat) (key : Nat → Nat) : Prop where
  lt : ∀ i < n, key i < n
  inj : ∀ i < n, ∀ j < n, key i = key j → i = j

/-- Translate the cells in place, from the position `i` on, and copy them to the workspace. -/
def moveOut (translate : α → Option α) (key : Nat → Nat) : (nodes : List Nat) → (i : Nat) →
    (cells workspace : Nat → α) → Option ((Nat → α) × (Nat → α))
  | [], _, cells, workspace => some (cells, workspace)
  | a :: nodes, i, cells, workspace => do
    let c ← translate (cells a)
    moveOut translate key nodes (i + 1) (Function.update cells a c)
      (Function.update workspace (key i) c)

/-- Copy the workspace to the addresses. -/
def moveBack (workspace : Nat → α) : (nodes : List Nat) → (i : Nat) → (cells : Nat → α) → Nat → α
  | [], _, cells => cells
  | a :: nodes, i, cells => moveBack workspace nodes (i + 1) (Function.update cells a (workspace i))

/-- Both loops; the workspace holds the cells of `unset` at first. -/
def shuffle (translate : α → Option α) (key : Nat → Nat) (nodes : List Nat)
    (cells unset : Nat → α) : Option (Nat → α) := do
  let (cells, workspace) ← moveOut translate key nodes 0 cells unset
  some (moveBack workspace nodes 0 cells)

/-- Change the cells at some addresses in place. -/
def updateAll (translate : α → Option α) : (nodes : List Nat) → (cells : Nat → α) →
    Option (Nat → α)
  | [], cells => some cells
  | a :: nodes, cells => do
    let c ← translate (cells a)
    updateAll translate nodes (Function.update cells a c)

section Loops

variable {translate : α → Option α} {key : Nat → Nat} {nodes : List Nat} {a x : Nat}

theorem moveBack_of_notMem (workspace : Nat → α) (i : Nat) (cells : Nat → α) (other : x ∉ nodes) :
    moveBack workspace nodes i cells x = cells x := by
  induction nodes generalizing i cells with
  | nil => rfl
  | cons a nodes ih =>
      simp only [List.mem_cons, not_or] at other
      rw [moveBack, ih _ _ other.2, Function.update_of_ne other.1]

theorem moveBack_of_mem (nodup : nodes.Nodup) (workspace : Nat → α) (i : Nat) (cells : Nat → α)
    {j : Nat} (found : nodes[j]? = some a) :
    moveBack workspace nodes i cells a = workspace (i + j) := by
  induction nodes generalizing i cells j with
  | nil => cases found
  | cons b nodes ih =>
      rw [List.nodup_cons] at nodup
      cases j with
      | zero =>
          cases found
          rw [moveBack, moveBack_of_notMem _ _ _ nodup.1, Function.update_self, Nat.add_zero]
      | succ j =>
          rw [moveBack, ih nodup.2 _ _ found, Nat.add_right_comm, Nat.add_assoc]

/-- The first loop, from the position `i` on: the cells at other addresses and the positions
of the workspace before `i` are kept. -/
theorem moveOut_spec {n : Nat} (permutes : Permutes n key) (nodup : nodes.Nodup) {i : Nat}
    (long : i + nodes.length = n) (cells workspace : Nat → α)
    (defined : ∀ a ∈ nodes, (translate (cells a)).isSome) :
    ∃ cells' workspace', moveOut translate key nodes i cells workspace =
        some (cells', workspace') ∧
      (∀ x ∉ nodes, cells' x = cells x) ∧
      (∀ j < i, workspace' (key j) = workspace (key j)) ∧
      ∀ j a, nodes[j]? = some a → translate (cells a) = some (workspace' (key (i + j))) := by
  induction nodes generalizing i cells workspace with
  | nil =>
      exact ⟨cells, workspace, rfl, fun _ _ => rfl, fun _ _ => rfl, fun _ _ none => by cases none⟩
  | cons b nodes ih =>
      rw [List.length_cons] at long
      rw [List.nodup_cons] at nodup
      obtain ⟨c, translated⟩ := Option.isSome_iff_exists.mp (defined b List.mem_cons_self)
      have kept : ∀ a ∈ nodes, Function.update cells b c a = cells a := fun a member =>
        Function.update_of_ne (fun same : a = b => nodup.1 (same ▸ member)) _ _
      obtain ⟨cells', workspace', run, other, before, moved⟩ := ih nodup.2 (i := i + 1) (by omega)
        (Function.update cells b c) (Function.update workspace (key i) c) (fun a member => by
          rw [kept a member]
          exact defined a (List.mem_cons_of_mem _ member))
      refine ⟨cells', workspace', ?_, fun x outside => ?_, fun j less => ?_, fun j a found => ?_⟩
      · rw [moveOut, translated]
        exact run
      · simp only [List.mem_cons, not_or] at outside
        rw [other x outside.2, Function.update_of_ne outside.1]
      · rw [before j (by omega), Function.update_of_ne]
        intro same
        have := permutes.inj j (by omega) i (by omega) same
        omega
      · cases j with
        | zero =>
            cases found
            rw [translated, Nat.add_zero, before i (by omega), Function.update_self]
        | succ j =>
            rw [← kept a (List.mem_of_getElem? found), moved j a found,
              show i + 1 + j = i + (j + 1) by omega]

/-- The cell at a position goes, translated, to the address at its new position. -/
theorem shuffle_spec (nodup : nodes.Nodup) (permutes : Permutes nodes.length key)
    (cells unset : Nat → α) (defined : ∀ a ∈ nodes, (translate (cells a)).isSome) :
    ∃ cells', shuffle translate key nodes cells unset = some cells' ∧
      (∀ x ∉ nodes, cells' x = cells x) ∧
      ∀ i a b, nodes[i]? = some a → nodes[key i]? = some b →
        translate (cells a) = some (cells' b) := by
  obtain ⟨cells1, workspace, run, other, -, moved⟩ := moveOut_spec permutes nodup (i := 0)
    (Nat.zero_add _) cells unset defined
  refine ⟨moveBack workspace nodes 0 cells1, by rw [shuffle, run]; rfl, fun x outside => ?_,
    fun i a b source target => ?_⟩
  · rw [moveBack_of_notMem _ _ _ outside, other x outside]
  · rw [moveBack_of_mem nodup _ _ _ target, Nat.zero_add, moved i a source, Nat.zero_add]

theorem updateAll_spec (nodup : nodes.Nodup) (cells : Nat → α)
    (defined : ∀ a ∈ nodes, (translate (cells a)).isSome) :
    ∃ cells', updateAll translate nodes cells = some cells' ∧
      (∀ x ∉ nodes, cells' x = cells x) ∧
      ∀ a ∈ nodes, translate (cells a) = some (cells' a) := by
  induction nodes generalizing cells with
  | nil => exact ⟨cells, rfl, fun _ _ => rfl, fun _ none => by cases none⟩
  | cons b nodes ih =>
      rw [List.nodup_cons] at nodup
      obtain ⟨c, translated⟩ := Option.isSome_iff_exists.mp (defined b List.mem_cons_self)
      have kept : ∀ a ∈ nodes, Function.update cells b c a = cells a := fun a member =>
        Function.update_of_ne (fun same : a = b => nodup.1 (same ▸ member)) _ _
      obtain ⟨cells', run, other, changed⟩ := ih nodup.2 (Function.update cells b c)
        (fun a member => by
          rw [kept a member]
          exact defined a (List.mem_cons_of_mem _ member))
      refine ⟨cells', by rw [updateAll, translated]; exact run, fun x outside => ?_,
        fun a member => ?_⟩
      · simp only [List.mem_cons, not_or] at outside
        rw [other x outside.2, Function.update_of_ne outside.1]
      · rcases List.mem_cons.mp member with rfl | later
        · rw [translated, other a nodup.1, Function.update_self]
        · rw [← kept a later, changed a later]

end Loops

/-! ## Where the cells go -/

/-- The address that the cell of an address goes to. -/
def relabel (nodes : List Nat) (key : Nat → Nat) (a : Nat) : Nat :=
  if a ∈ nodes then nodes.getD (key (nodes.idxOf a)) a else a

section Relabel

variable {nodes : List Nat} {key : Nat → Nat} {i a b : Nat}

theorem relabel_of_notMem (outside : a ∉ nodes) : relabel nodes key a = a := if_neg outside

theorem relabel_eq (nodup : nodes.Nodup) (source : nodes[i]? = some a)
    (target : nodes[key i]? = some b) : relabel nodes key a = b := by
  obtain ⟨inside, rfl⟩ := List.getElem?_eq_some_iff.mp source
  rw [relabel, if_pos (List.getElem_mem inside), nodup.idxOf_getElem, List.getD_eq_getElem?_getD,
    target, Option.getD_some]

theorem exists_target (permutes : Permutes nodes.length key) (source : nodes[i]? = some a) :
    ∃ b, nodes[key i]? = some b := by
  obtain ⟨inside, -⟩ := List.getElem?_eq_some_iff.mp source
  exact ⟨_, List.getElem?_eq_getElem (permutes.lt i inside)⟩

theorem relabel_mem (nodup : nodes.Nodup) (permutes : Permutes nodes.length key)
    (member : a ∈ nodes) : relabel nodes key a ∈ nodes := by
  obtain ⟨i, source⟩ := List.mem_iff_getElem?.mp member
  obtain ⟨b, target⟩ := exists_target permutes source
  rw [relabel_eq nodup source target]
  exact List.mem_of_getElem? target

theorem relabel_injective (nodup : nodes.Nodup) (permutes : Permutes nodes.length key) :
    Function.Injective (relabel nodes key) := by
  intro a b same
  by_cases memberA : a ∈ nodes
  · by_cases memberB : b ∈ nodes
    · obtain ⟨i, sourceA⟩ := List.mem_iff_getElem?.mp memberA
      obtain ⟨j, sourceB⟩ := List.mem_iff_getElem?.mp memberB
      obtain ⟨c, targetA⟩ := exists_target permutes sourceA
      obtain ⟨d, targetB⟩ := exists_target permutes sourceB
      rw [relabel_eq nodup sourceA targetA, relabel_eq nodup sourceB targetB] at same
      subst same
      have insideA := (List.getElem?_eq_some_iff.mp sourceA).1
      have insideB := (List.getElem?_eq_some_iff.mp sourceB).1
      have keys : key i = key j := by
        rw [← targetB] at targetA
        exact (List.getElem?_inj (permutes.lt i insideA) nodup).mp targetA
      have := permutes.inj i insideA j insideB keys
      subst this
      rw [sourceA] at sourceB
      exact Option.some.inj sourceB
    · rw [relabel_of_notMem memberB] at same
      exact absurd (same ▸ relabel_mem nodup permutes memberA) memberB
  · by_cases memberB : b ∈ nodes
    · rw [relabel_of_notMem memberA] at same
      exact absurd (same ▸ relabel_mem nodup permutes memberB) memberA
    · rwa [relabel_of_notMem memberA, relabel_of_notMem memberB] at same

/-- The cells stay within the addresses. -/
theorem map_relabel_perm (nodup : nodes.Nodup) (permutes : Permutes nodes.length key) :
    (nodes.map (relabel nodes key)).Perm nodes := by
  refine List.Subperm.perm_of_length_le ?_ (by rw [List.length_map])
  refine (nodup.map (relabel_injective nodup permutes)).subperm fun b member => ?_
  obtain ⟨a, inside, rfl⟩ := List.mem_map.mp member
  exact relabel_mem nodup permutes inside

end Relabel

end Rma.Base
