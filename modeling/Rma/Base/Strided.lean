import Mathlib.Tactic

/-!
# Strided copies

`copyBlocks e p r k` copies `k` blocks of `e` elements each; the blocks are `p` elements apart where
they are read and `r` elements apart where they are written. A copy is undefined where it reads or
writes outside of an array. `copyLoop_frame` and `copyBlocks_frame` say what a copy leaves as it is,
`copyLoop_spec` and `copyBlocks_spec` what it writes.
-/

namespace Rma.Base

variable {α : Type*}

/-- `destination[d + i] = source[s + i]`, for `room` positions from `i` on. -/
def copyLoop (source : List α) (s d : Nat) : (room i : Nat) → List α → Option (List α)
  | 0, _, destination => some destination
  | room + 1, i, destination => do
    let x ← source[s + i]?
    if d + i < destination.length then copyLoop source s d room (i + 1) (destination.set (d + i) x)
    else none

/-- `k` blocks of `e` elements, from one in `p` to one in `r`. -/
def copyBlocks (e p r : Nat) (source : List α) : (k s d : Nat) → List α → Option (List α)
  | 0, _, _, destination => some destination
  | k + 1, s, d, destination => do
    let destination ← copyLoop source s d e 0 destination
    copyBlocks e p r source k (s + p) (d + r) destination

section Copies

variable {source destination result : List α} {s d room i e p r k : Nat}

/-- The elements that are not written. -/
theorem copyLoop_frame (run : copyLoop source s d room i destination = some result) :
    result.length = destination.length ∧
      ∀ q, q < d + i ∨ d + i + room ≤ q → result[q]? = destination[q]? := by
  induction room generalizing i destination with
  | zero =>
      cases run
      exact ⟨rfl, fun _ _ => rfl⟩
  | succ room ih =>
      obtain ⟨x, -, rest⟩ := Option.bind_eq_some_iff.mp run
      split at rest
      · obtain ⟨length, others⟩ := ih rest
        refine ⟨by rw [length, List.length_set], fun q outside => ?_⟩
        rw [others q (by omega), List.getElem?_set_ne (by omega)]
      · cases rest

/-- The elements that are copied. -/
theorem copyLoop_spec (reads : s + i + room ≤ source.length)
    (writes : d + i + room ≤ destination.length) :
    ∃ result, copyLoop source s d room i destination = some result ∧
      ∀ o, i ≤ o → o < i + room → result[d + o]? = source[s + o]? := by
  induction room generalizing i destination with
  | zero => exact ⟨destination, rfl, fun o lower upper => by omega⟩
  | succ room ih =>
      have read := List.getElem?_eq_getElem (show s + i < source.length by omega)
      obtain ⟨result, run, copied⟩ := @ih (destination.set (d + i) source[s + i]) (i + 1)
        (by omega) (by rw [List.length_set]; omega)
      refine ⟨result, ?_, fun o lower upper => ?_⟩
      · rw [copyLoop, read, Option.bind_eq_bind, Option.bind_some, if_pos (by omega)]
        exact run
      · rcases Nat.eq_or_lt_of_le lower with rfl | later
        · rw [(copyLoop_frame run).2 _ (by omega), List.getElem?_set_self (by omega), read]
        · exact copied o later (by omega)

/-- Two copies in a row. -/
theorem copyLoop_add (m n : Nat) : copyLoop source s d (m + n) i destination =
    (copyLoop source s d m i destination).bind (copyLoop source s d n (i + m)) := by
  induction m generalizing i destination with
  | zero => rw [Nat.zero_add]; rfl
  | succ m ih =>
      rw [Nat.succ_add, copyLoop, copyLoop, Option.bind_eq_bind, Option.bind_assoc]
      refine Option.bind_congr fun x _ => ?_
      split
      · rw [ih, Nat.add_right_comm, Nat.add_assoc i]
      · rfl

/-- A copy from further on. -/
theorem copyLoop_shift (j : Nat) : copyLoop source s d room (j + i) destination =
    copyLoop source (s + j) (d + j) room i destination := by
  induction room generalizing i destination with
  | zero => rfl
  | succ room ih =>
      rw [copyLoop, copyLoop, ← Nat.add_assoc, ← Nat.add_assoc]
      refine Option.bind_congr fun x _ => ?_
      split
      · rw [Nat.add_assoc j, ih]
      · rfl

/-- Blocks without gaps are one copy. -/
theorem copyBlocks_whole (e k : Nat) : copyBlocks e e e source k s d destination =
    copyLoop source s d (k * e) 0 destination := by
  induction k generalizing s d destination with
  | zero => rw [Nat.zero_mul]; rfl
  | succ k ih =>
      rw [copyBlocks, Nat.succ_mul, Nat.add_comm (k * e), copyLoop_add, Nat.zero_add]
      refine Option.bind_congr fun x _ => ?_
      rw [ih, ← copyLoop_shift, Nat.add_zero]

/-- Empty blocks. -/
theorem copyBlocks_zero (k : Nat) :
    copyBlocks 0 p r source k s d destination = some destination := by
  induction k generalizing s d with
  | zero => rfl
  | succ k ih => exact ih

/-- The elements before and after the blocks. -/
theorem copyBlocks_frame (fits : 0 < k → e ≤ r)
    (run : copyBlocks e p r source k s d destination = some result) :
    result.length = destination.length ∧
      ∀ q, q < d ∨ d + k * r ≤ q → result[q]? = destination[q]? := by
  induction k generalizing s d destination with
  | zero =>
      cases run
      exact ⟨rfl, fun _ _ => rfl⟩
  | succ k ih =>
      obtain ⟨middle, first, rest⟩ := Option.bind_eq_some_iff.mp run
      have room := fits (Nat.succ_pos k)
      obtain ⟨length, others⟩ := ih (fun _ => room) rest
      obtain ⟨length', others'⟩ := copyLoop_frame first
      refine ⟨length.trans length', fun q outside => ?_⟩
      rw [Nat.succ_mul] at outside
      rw [others q (by omega), others' q (by omega)]

/-- The elements of the blocks are copied, and those in the gaps are not written. -/
theorem copyBlocks_spec (fits : 0 < k → e ≤ r) (reads : ∀ j < k, s + j * p + e ≤ source.length)
    (writes : ∀ j < k, d + j * r + e ≤ destination.length) :
    ∃ result, copyBlocks e p r source k s d destination = some result ∧
      (∀ j o, j < k → o < e → result[d + j * r + o]? = source[s + j * p + o]?) ∧
      ∀ j o, j < k → e ≤ o → o < r → result[d + j * r + o]? = destination[d + j * r + o]? := by
  induction k generalizing s d destination with
  | zero => exact ⟨destination, rfl, fun j o less => by omega, fun j o less => by omega⟩
  | succ k ih =>
      have room := fits (Nat.succ_pos k)
      have reads₀ := reads 0 (Nat.succ_pos k)
      have writes₀ := writes 0 (Nat.succ_pos k)
      rw [Nat.zero_mul, Nat.add_zero] at reads₀ writes₀
      obtain ⟨middle, first, copied⟩ := @copyLoop_spec _ source destination s d e 0 reads₀ writes₀
      obtain ⟨length, others⟩ := copyLoop_frame first
      obtain ⟨result, rest, blocks, gaps⟩ := @ih middle (s + p) (d + r) (fun _ => room)
        (fun j less => by
          have := reads (j + 1) (by omega)
          rw [Nat.succ_mul] at this
          omega)
        (fun j less => by
          have := writes (j + 1) (by omega)
          rw [Nat.succ_mul] at this
          omega)
      obtain ⟨-, others'⟩ := copyBlocks_frame (fun _ => room) rest
      refine ⟨result, by rw [copyBlocks, first]; exact rest, fun j o less inside => ?_,
        fun j o less gap inside => ?_⟩
      · cases j with
        | zero =>
            rw [Nat.zero_mul, Nat.add_zero, Nat.zero_mul, Nat.add_zero, others' _ (by omega),
              copied o (Nat.zero_le o) (by omega)]
        | succ j =>
            have block := blocks j o (by omega) inside
            rwa [show d + (j + 1) * r + o = d + r + j * r + o by rw [Nat.succ_mul]; omega,
              show s + (j + 1) * p + o = s + p + j * p + o by rw [Nat.succ_mul]; omega]
      · cases j with
        | zero =>
            rw [Nat.zero_mul, Nat.add_zero, others' _ (by omega), others _ (by omega)]
        | succ j =>
            have kept := gaps j o (by omega) gap inside
            rw [show d + (j + 1) * r + o = d + r + j * r + o by rw [Nat.succ_mul]; omega, kept,
              others _ (by omega)]

end Copies

end Rma.Base
