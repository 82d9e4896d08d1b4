import Rma.StaticIndex

/-!
# The logarithms of the static index

The static index computes the height of a tree as `ceil(log2(n) / log2(b))` in
floating point. The quotient can be above the exact one, and the height is then
one too many: with `b = 3` it is 6 for 243 entries, which fill a tree of height 5.
The root has no separator then, and the loop of `rebuild` goes on for ever with
the last subtree, which is the whole tree again.

`rebuildIn` is `rebuild` with the heights that the hardware computes. It returns
what the exact one returns when the heights of the rightmost subtrees are exact,
and does not return otherwise.
-/

namespace Rma

/-- The heights as the hardware computes them. -/
structure Logarithms where
  /-- `ceil(log2(n) / log2(nodeSize))` -/
  height : Nat → Nat → Nat
  /-- The logarithm of 1 is 0. -/
  one : ∀ nodeSize, height nodeSize 1 = 0
  /-- The rounding is never enough to lose a level, over as many entries as there is memory for. -/
  le : ∀ nodeSize n, StaticIndex.heightOf nodeSize n ≤ height nodeSize n

namespace Logarithms

open StaticIndex

/-- No rounding. -/
def exact : Logarithms where
  height := heightOf
  one := Nat.clog_one_right
  le := fun _ _ => le_rfl

/-- One level too many for 243 entries in nodes of 3: `log2(243) / log2(3)` is
5.000000000000001 in doubles. -/
def above : Logarithms where
  height := fun b n => if b = 3 ∧ n = 243 then 6 else heightOf b n
  one := by simp [heightOf]
  le := by
    intro b n
    split
    next triple =>
      rw [triple.1, triple.2]
      decide
    next => exact le_rfl

/-- The heights of a tree and of its rightmost subtrees are exact. -/
inductive Right (logs : Logarithms) (b : Nat) : Nat → Prop
  | leaf : Right logs b 1
  | node {n : Nat} (several : 1 < n) (height : logs.height b n = heightOf b n)
      (right : Right logs b ((n - 1) % b ^ (heightOf b n - 1) + 1)) : Right logs b n

theorem Right.height {logs : Logarithms} {b n : Nat} (right : logs.Right b n) :
    logs.height b n = heightOf b n := by
  cases right with
  | leaf => rw [logs.one, heightOf, Nat.clog_one_right]
  | node _ height => exact height

/-- Where the logarithms are exact, all the heights are. -/
theorem exact_right {b n : Nat} (base : 1 < b) (positive : 0 < n) : exact.Right b n := by
  induction n using Nat.strong_induction_on with
  | _ n ih =>
      by_cases several : 1 < n
      · refine Right.node several rfl (ih _ ?_ (Nat.succ_pos _))
        have above : 0 < heightOf b n := Nat.clog_pos base several
        have lower : b ^ (heightOf b n - 1) < n :=
          (Nat.lt_clog_iff_pow_lt base).mp (Nat.sub_one_lt above.ne')
        have rest := Nat.mod_lt (n - 1) (Nat.pow_pos (by omega) : 0 < b ^ (heightOf b n - 1))
        omega
      · obtain rfl : n = 1 := by omega
        exact Right.leaf

end Logarithms

open Base

namespace StaticIndex

/-- The loop of `rebuild` over the rightmost subtrees. It is undefined where it does not end: each
turn that is not the last one has a lower height, so `fuel` is the height of the tree. -/
def setRightmostIn (logs : Logarithms) (nodeSize : Nat) :
    Nat → Nat → Nat → (Nat → RightmostSubtreeInfo) → Option (Nat → RightmostSubtreeInfo)
  | 0, _, height, rightmost => if height = 0 then some rightmost else none
  | fuel + 1, n, height, rightmost =>
    if height = 0 then some rightmost
    else
      let subtreeSz := nodeSize ^ (height - 1)
      let remainder := (n - 1) % subtreeSz
      let rightSz := if 0 < remainder then remainder + 1 else remainder
      let rightHeight := if 0 < remainder then logs.height nodeSize rightSz else 0
      setRightmostIn logs nodeSize fuel rightSz rightHeight
        (Function.update rightmost (height - 1) ⟨(n - 1) / subtreeSz, rightHeight⟩)

section Loop

variable {logs : Logarithms} {b n : Nat}

theorem setRightmostIn_ground (fuel : Nat) (rightmost : Nat → RightmostSubtreeInfo) :
    setRightmostIn logs b fuel n 0 rightmost = some rightmost := by
  cases fuel with
  | zero => rfl
  | succ fuel => rfl

/-- One turn: the last subtree has the remainder of the separators. -/
theorem setRightmostIn_succ {h : Nat} (fuel : Nat) (rightmost : Nat → RightmostSubtreeInfo) :
    setRightmostIn logs b (fuel + 1) n (h + 1) rightmost =
      setRightmostIn logs b fuel ((n - 1) % b ^ h + 1) (logs.height b ((n - 1) % b ^ h + 1))
        (Function.update rightmost h
          ⟨(n - 1) / b ^ h, logs.height b ((n - 1) % b ^ h + 1)⟩) := by
  simp only [setRightmostIn, Nat.add_one_ne_zero, if_false, Nat.add_sub_cancel]
  by_cases remainder : 0 < (n - 1) % b ^ h
  · simp only [remainder, if_true]
  · have none : (n - 1) % b ^ h = 0 := Nat.eq_zero_of_not_pos remainder
    simp only [none, lt_irrefl, if_false, Nat.zero_add, logs.one, setRightmostIn_ground]

/-- One turn of the loop with exact heights. -/
theorem setRightmost_succ {h : Nat} (fuel : Nat) (rightmost : Nat → RightmostSubtreeInfo) :
    setRightmost b (fuel + 1) n (h + 1) rightmost =
      setRightmost b fuel ((n - 1) % b ^ h + 1) (heightOf b ((n - 1) % b ^ h + 1))
        (Function.update rightmost h ⟨(n - 1) / b ^ h, heightOf b ((n - 1) % b ^ h + 1)⟩) := by
  have ground : ∀ (fuel n : Nat) (rightmost : Nat → RightmostSubtreeInfo),
      setRightmost b fuel n 0 rightmost = rightmost := by
    intro fuel n rightmost
    cases fuel with
    | zero => rfl
    | succ fuel => rfl
  simp only [setRightmost, Nat.add_one_ne_zero, if_false, Nat.add_sub_cancel]
  by_cases remainder : 0 < (n - 1) % b ^ h
  · simp only [remainder, if_true]
  · have none : (n - 1) % b ^ h = 0 := Nat.eq_zero_of_not_pos remainder
    have one : heightOf b 1 = 0 := Nat.clog_one_right b
    simp only [none, lt_irrefl, if_false, Nat.zero_add, one, ground]

/-- A node whose last subtree is the whole tree again: the loop does not end. -/
theorem setRightmostIn_stuck (positive : 0 < n) (above : 0 < logs.height b n)
    (whole : (n - 1) % b ^ (logs.height b n - 1) = n - 1) (fuel : Nat)
    (rightmost : Nat → RightmostSubtreeInfo) :
    setRightmostIn logs b fuel n (logs.height b n) rightmost = none := by
  obtain ⟨h, height⟩ := Nat.exists_eq_succ_of_ne_zero above.ne'
  rw [height, Nat.succ_sub_one] at whole
  induction fuel generalizing rightmost with
  | zero => rw [height, setRightmostIn, if_neg (Nat.succ_ne_zero h)]
  | succ fuel ih =>
      rw [height, setRightmostIn_succ, whole, Nat.sub_add_cancel positive]
      exact ih _

/-- A tree that is said to be higher than it is has no separator at its root. -/
theorem setRightmostIn_high (base : 1 < b) (positive : 0 < n)
    (high : heightOf b n < logs.height b n) (fuel : Nat)
    (rightmost : Nat → RightmostSubtreeInfo) :
    setRightmostIn logs b fuel n (logs.height b n) rightmost = none := by
  have fits : n ≤ b ^ (logs.height b n - 1) :=
    (Nat.le_pow_clog base n).trans (Nat.pow_le_pow_right (by omega) (Nat.le_sub_one_of_lt high))
  exact setRightmostIn_stuck positive (by omega) (Nat.mod_eq_of_lt (by omega)) fuel rightmost

/-- A remainder modulo a power is its own remainder modulo a higher one. -/
theorem mod_pow_of_le {b m h g : Nat} (le : h ≤ g) (some : m % b ^ h ≠ 0) :
    m % b ^ h % b ^ g = m % b ^ h := by
  cases b with
  | zero =>
      cases h with
      | zero => exact absurd (Nat.mod_one m) some
      | succ h => rw [Nat.zero_pow (Nat.succ_pos h), Nat.zero_pow (by omega), Nat.mod_zero]
  | succ b =>
      apply Nat.mod_eq_of_lt
      exact (Nat.mod_lt _ (Nat.pow_pos (Nat.succ_pos b))).trans_le
        (Nat.pow_le_pow_right (Nat.succ_pos b) le)

/-- Where the loop ends, the last subtree of every node is lower than the node. -/
theorem setRightmostIn_right_le (logs : Logarithms) (b fuel n h : Nat)
    {rightmost rightmost' : Nat → RightmostSubtreeInfo}
    (right_le : ∀ k, (rightmost k).rightHeight ≤ k)
    (run : setRightmostIn logs b fuel n h rightmost = some rightmost') (k : Nat) :
    (rightmost' k).rightHeight ≤ k := by
  induction fuel generalizing n h rightmost with
  | zero =>
      unfold setRightmostIn at run
      split at run
      · cases run
        exact right_le k
      · cases run
  | succ fuel ih =>
      cases h with
      | zero =>
          rw [setRightmostIn_ground] at run
          cases run
          exact right_le k
      | succ h =>
          rw [setRightmostIn_succ] at run
          by_cases lower : logs.height b ((n - 1) % b ^ h + 1) ≤ h
          · refine ih _ _ (fun j => ?_) run
            by_cases same : j = h
            · subst same
              rwa [Function.update_self]
            · rw [Function.update_of_ne same]
              exact right_le j
          · -- the last subtree is its own last subtree
            have some : (n - 1) % b ^ h ≠ 0 := by
              intro none
              rw [none, Nat.zero_add, logs.one] at lower
              exact lower (Nat.zero_le h)
            have above : 0 < logs.height b ((n - 1) % b ^ h + 1) := by omega
            have whole : ((n - 1) % b ^ h + 1 - 1) %
                b ^ (logs.height b ((n - 1) % b ^ h + 1) - 1) = (n - 1) % b ^ h + 1 - 1 := by
              rw [Nat.add_sub_cancel]
              exact mod_pow_of_le (Nat.le_sub_one_of_lt (Nat.lt_of_not_le lower)) some
            rw [setRightmostIn_stuck (Nat.succ_pos _) above whole] at run
            cases run

/-- The loop ends exactly when the heights that it computes are exact, with the path of the exact
loop. -/
theorem setRightmostIn_eq_some (base : 1 < b) (fuel : Nat) (positive : 0 < n)
    (enough : heightOf b n ≤ fuel) (rightmost rightmost' : Nat → RightmostSubtreeInfo) :
    setRightmostIn logs b fuel n (logs.height b n) rightmost = some rightmost' ↔
      logs.Right b n ∧ rightmost' = setRightmost b fuel n (heightOf b n) rightmost := by
  induction fuel generalizing n rightmost with
  | zero =>
      have ground := Nat.le_zero.mp enough
      obtain rfl := eq_one_of_heightOf base positive ground
      rw [logs.one, ground, setRightmostIn_ground, Option.some.injEq]
      exact ⟨fun same => ⟨Logarithms.Right.leaf, same.symm⟩, fun same => same.2.symm⟩
  | succ fuel ih =>
      by_cases single : n = 1
      · subst single
        rw [logs.one, heightOf, Nat.clog_one_right, setRightmostIn_ground, Option.some.injEq]
        exact ⟨fun same => ⟨Logarithms.Right.leaf, same.symm⟩, fun same => same.2.symm⟩
      have several : 1 < n := by omega
      by_cases height : logs.height b n = heightOf b n
      · obtain ⟨h, ground⟩ : ∃ h, heightOf b n = h + 1 :=
          Nat.exists_eq_succ_of_ne_zero (Nat.clog_pos base several).ne'
        have right : logs.Right b n ↔ logs.Right b ((n - 1) % b ^ h + 1) := by
          constructor
          · intro right
            cases right with
            | leaf => exact absurd several (lt_irrefl 1)
            | node _ _ right => rwa [ground] at right
          · intro right
            exact Logarithms.Right.node several height (by rwa [ground])
        have lower : heightOf b ((n - 1) % b ^ h + 1) ≤ fuel :=
          (heightOf_succ_mod_le b (n - 1) h).trans (by omega)
        rw [height, ground, setRightmostIn_succ, setRightmost_succ, right,
          ih (Nat.succ_pos _) lower]
        constructor
        · rintro ⟨right, rfl⟩
          exact ⟨right, by rw [right.height]⟩
        · rintro ⟨right, rfl⟩
          exact ⟨right, by rw [right.height]⟩
      · have high := lt_of_le_of_ne (logs.le b n) (Ne.symm height)
        rw [setRightmostIn_high base positive high]
        simp only [reduceCtorEq, false_iff]
        rintro ⟨right, -⟩
        exact height right.height

end Loop

/-- `rebuild`, undefined where it does not return. -/
def rebuildIn (logs : Logarithms) (n : Nat) (block : Option (Nat → Int)) (index : StaticIndex) :
    Option (EStateM.Result StaticIndexException StaticIndex Unit) :=
  let height := logs.height index.nodeSize n
  if n = 0 then some (.error .noKeys index)
  else if rightmostSz < height then some (.error .tooManyKeys index)
  else if height ≠ index.height ∧ block = none then
    some (.error .badAlloc { index with keys := none })
  else
    let keys := if height ≠ index.height then block else index.keys
    match run : setRightmostIn logs index.nodeSize height n height index.rightmost with
    | none => none
    | some rightmost =>
      some (.ok () { index with
        keys := keys
        height := height
        capacity := n
        rightmost := rightmost
        right_le := setRightmostIn_right_le _ _ _ _ _ index.right_le run })

section Rebuild

variable {logs : Logarithms} {n : Nat} {block : Option (Nat → Int)} {index index' : StaticIndex}

/-- The index that `rebuild` leaves. -/
theorem rebuild_of_room (positive : n ≠ 0) (fit : heightOf index.nodeSize n ≤ rightmostSz)
    (room : heightOf index.nodeSize n = index.height ∨ block ≠ none) :
    rebuild n block index = .ok () { index with
      keys := if heightOf index.nodeSize n ≠ index.height then block else index.keys
      height := heightOf index.nodeSize n
      capacity := n
      rightmost := setRightmost index.nodeSize (heightOf index.nodeSize n) n
        (heightOf index.nodeSize n) index.rightmost
      right_le := setRightmost_right_le _ _ _ _ index.right_le } := by
  rw [rebuild, bind_of_ok (raiseIf_of_neg positive), bind_get,
    bind_of_ok (raiseIf_of_neg (Nat.not_lt.mpr fit))]
  by_cases differs : heightOf index.nodeSize n = index.height
  · rw [runIf, if_neg (not_not.mpr differs), if_neg (not_not.mpr differs)]
    simp only [differs]
    rfl
  · rw [runIf, if_pos differs, if_pos differs, raiseIf, if_neg (room.resolve_left differs)]
    rfl

/-- When `rebuild` returns, and the index that it leaves. -/
theorem rebuild_eq_ok :
    rebuild n block index = .ok () index' ↔
      n ≠ 0 ∧ heightOf index.nodeSize n ≤ rightmostSz ∧
        (heightOf index.nodeSize n = index.height ∨ block ≠ none) ∧
        index' = { index with
          keys := if heightOf index.nodeSize n ≠ index.height then block else index.keys
          height := heightOf index.nodeSize n
          capacity := n
          rightmost := setRightmost index.nodeSize (heightOf index.nodeSize n) n
            (heightOf index.nodeSize n) index.rightmost
          right_le := setRightmost_right_le _ _ _ _ index.right_le } := by
  constructor
  · intro ok
    have positive : n ≠ 0 := by
      rintro rfl
      rw [rebuild, bind_of_error (raiseIf_of_pos rfl)] at ok
      cases ok
    rcases @rebuild_cases index n block (Nat.pos_of_ne_zero positive) with ⟨high, fits⟩
    have fit : heightOf index.nodeSize n ≤ rightmostSz := by
      by_contra above
      rw [high (Nat.lt_of_not_le above)] at ok
      cases ok
    have room : heightOf index.nodeSize n = index.height ∨ block ≠ none := by
      by_contra lacks
      rw [not_or, not_not] at lacks
      rw [(fits fit).1 lacks.1 lacks.2] at ok
      cases ok
    refine ⟨positive, fit, room, ?_⟩
    rw [rebuild_of_room positive fit room] at ok
    exact (EStateM.Result.ok.inj ok).2.symm
  · rintro ⟨positive, fit, room, rfl⟩
    exact rebuild_of_room positive fit room

/-- **`rebuild` returns exactly when the heights are exact**, where it would return with exact
logarithms, and leaves the same index. -/
theorem rebuildIn_eq_ok (base : 1 < index.nodeSize) :
    rebuildIn logs n block index = some (.ok () index') ↔
      rebuild n block index = .ok () index' ∧ logs.Right index.nodeSize n := by
  rw [rebuild_eq_ok]
  unfold rebuildIn
  by_cases positive : n = 0
  · simp [positive]
  have loop := fun rightmost' => @setRightmostIn_eq_some logs index.nodeSize n base
    (logs.height index.nodeSize n) (Nat.pos_of_ne_zero positive)
      (logs.le _ _) index.rightmost rightmost'
  by_cases high : rightmostSz < logs.height index.nodeSize n
  · simp only [positive, if_false, high, if_true]
    constructor
    · intro ok
      cases ok
    · rintro ⟨⟨_, fit, -⟩, right⟩
      rw [right.height] at high
      omega
  by_cases lacks : logs.height index.nodeSize n ≠ index.height ∧ block = none
  · simp only [positive, if_false, high, if_pos lacks]
    constructor
    · intro ok
      cases ok
    · rintro ⟨⟨_, _, room, -⟩, right⟩
      rw [right.height] at lacks
      exact absurd lacks (by tauto)
  simp only [positive, if_false, high, if_neg lacks]
  split
  next run =>
    constructor
    · intro ok
      cases ok
    · rintro ⟨-, right⟩
      rw [(loop _).mpr ⟨right, rfl⟩] at run
      cases run
  next rightmost run =>
    rcases (loop _).mp run with ⟨right, rfl⟩
    have height := right.height
    rw [height] at high lacks
    simp only [height, Option.some.injEq, EStateM.Result.ok.injEq, true_and, ne_eq, positive,
      not_false_eq_true, Nat.le_of_not_lt high, right, and_true]
    constructor
    · rintro rfl
      exact ⟨by tauto, rfl⟩
    · rintro ⟨-, rfl⟩
      rfl

/-- Above eight levels `rebuild` raises, however the height is rounded. -/
theorem rebuildIn_high (positive : n ≠ 0) (high : rightmostSz < heightOf index.nodeSize n) :
    rebuildIn logs n block index = some (.error .tooManyKeys index) := by
  have above := high.trans_le (logs.le index.nodeSize n)
  unfold rebuildIn
  simp only [positive, if_false, above, if_true]

/-- Where `rebuild` raises, the index is as before, unless it got no memory. -/
theorem rebuildIn_error {e : StaticIndexException}
    (raised : rebuildIn logs n block index = some (.error e index')) (other : e ≠ .badAlloc) :
    index' = index := by
  unfold rebuildIn at raised
  dsimp only at raised
  split at raised
  · cases raised
    rfl
  · split at raised
    · cases raised
      rfl
    · split at raised
      · cases raised
        exact absurd rfl other
      · split at raised
        · cases raised
        · cases raised

/-- An index that was rebuilt is built for the new number of entries. -/
theorem Sized.rebuiltIn {m : Nat} (sized : index.Sized m)
    (rebuilt : rebuildIn logs n block index = some (.ok () index')) : index'.Sized n :=
  (rebuild_ok sized.base sized.allocated_of_height
    ((rebuildIn_eq_ok sized.base).mp rebuilt).1).1

end Rebuild

end StaticIndex

end Rma
