import Mathlib.Tactic

/-!
# Slices of an array

`slice l p n` is a `memcpy` of `n` elements from the position `p` on, undefined beyond the end.
-/

namespace Rma.Base

variable {α : Type*} {l l' : List α} {p n m : Nat}

/-- The `n` elements from the position `p` on. -/
def slice (l : List α) (p n : Nat) : Option (List α) :=
  if p + n ≤ l.length then some ((l.drop p).take n) else none

theorem slice_eq (within : p + n ≤ l.length) : slice l p n = some ((l.drop p).take n) :=
  if_pos within

theorem slice_beyond (beyond : l.length < p + n) : slice l p n = none :=
  if_neg (Nat.not_le.mpr beyond)

theorem length_take_drop (within : p + n ≤ l.length) : ((l.drop p).take n).length = n := by
  rw [List.length_take, List.length_drop]
  omega

/-- Two slices in a row. -/
theorem take_drop_add : (l.drop p).take (n + m) = (l.drop p).take n ++ (l.drop (p + n)).take m := by
  rw [List.take_add, List.drop_drop]

/-- The first element of a slice. -/
theorem head?_take_drop (positive : 0 < n) : ((l.drop p).take n).head? = l[p]? := by
  rw [List.head?_take, if_neg positive.ne', List.head?_drop]

end Rma.Base
