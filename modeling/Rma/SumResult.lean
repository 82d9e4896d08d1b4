import Mathlib.Tactic
import Rma.Base.Words

/-!
# The result of a range sum

`SumResult` is what the `sum(min, max)` of every container returns. The scans add up the pairs
one after the other, the sums modulo `2 ^ 64`: `accumulate` does so for a list, and `Sums` says
what the result reports of the pairs in the interval.
-/

namespace Rma

open Base

structure SumResult where
  firstKey : Int
  lastKey : Int
  numElements : Nat
  sumKeys : Int
  sumValues : Int
  deriving DecidableEq, Repr

namespace SumResult

def empty : SumResult := ⟨0, 0, 0, 0, 0⟩

/-- Adding modulo `2 ^ 64` step by step gives the sum modulo `2 ^ 64`. -/
theorem foldl_addInt64 (l : List Int) (x : Int) :
    (l.foldl addInt64 x).bmod (2 ^ 64) = (x + l.sum).bmod (2 ^ 64) := by
  induction l generalizing x with
  | nil => simp
  | cons k l ih =>
      rw [List.foldl_cons, ih, List.sum_cons, ← Int.add_assoc, addInt64]
      exact Int.bmod_add_bmod

/-- The sum from zero is the total, modulo `2 ^ 64`. -/
theorem foldl_addInt64_zero (l : List Int) :
    l.foldl addInt64 0 = l.sum.bmod (2 ^ 64) := by
  have wrapped : ∀ (l : List Int) (x : Int), x = x.bmod (2 ^ 64) →
      l.foldl addInt64 x = (l.foldl addInt64 x).bmod (2 ^ 64) := by
    intro l
    induction l with
    | nil => exact fun _ h => h
    | cons k l ih => exact fun x _ => ih _ Int.bmod_bmod.symm
  rw [wrapped l 0 (by simp), foldl_addInt64, Int.zero_add]

/-- Add up the given pairs. -/
def accumulate (result : SumResult) (l : List (Int × Int)) : SumResult :=
  { result with
    numElements := result.numElements + l.length
    sumKeys := (l.map Prod.fst).foldl addInt64 result.sumKeys
    sumValues := (l.map Prod.snd).foldl addInt64 result.sumValues }

theorem accumulate_append (result : SumResult) (l₁ l₂ : List (Int × Int)) :
    accumulate result (l₁ ++ l₂) = accumulate (accumulate result l₁) l₂ := by
  simp [accumulate, Nat.add_assoc]

/-- What `sum` reports of the pairs in an interval. -/
structure Sums (out : List (Int × Int)) (result : SumResult) : Prop where
  numElements : result.numElements = out.length
  sumKeys : result.sumKeys = (out.map Prod.fst).sum.bmod (2 ^ 64)
  sumValues : result.sumValues = (out.map Prod.snd).sum.bmod (2 ^ 64)
  firstKey : ∀ e, out.head? = some e → result.firstKey = e.1
  lastKey : ∀ e, out.getLast? = some e → result.lastKey = e.1

theorem sums_empty : Sums [] SumResult.empty :=
  ⟨rfl, rfl, rfl, fun _ none => (nomatch none), fun _ none => (nomatch none)⟩

/-- The pairs of an interval, with its first and its last key, added up from nothing. -/
theorem sums_accumulate {out : List (Int × Int)} {e e' : Int × Int} (first : out.head? = some e)
    (last : out.getLast? = some e') :
    Sums out (accumulate { empty with firstKey := e.1, lastKey := e'.1 } out) := by
  refine ⟨Nat.zero_add _, foldl_addInt64_zero _, foldl_addInt64_zero _, fun x head => ?_,
    fun x final => ?_⟩
  · rw [Option.some.inj (first.symm.trans head)]
    rfl
  · rw [Option.some.inj (last.symm.trans final)]
    rfl

end SumResult

end Rma
