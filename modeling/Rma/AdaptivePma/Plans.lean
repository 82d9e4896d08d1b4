import Rma.AdaptivePma.Segment

/-!
# The windows of the plans

A plan for a window has a power of two of segments, and starts at a multiple of it or at whole
extents (`Ready.aligned`). So a spread within an extent moves pairs of segments, and a spread with
rewiring moves extents.
-/

namespace Rma

open Base

namespace Pma

/-- The window of a plan is made of pairs of segments, and of extents if it is not within one. -/
def Aligned (s : Pma) (plan : RebalanceMetadata) : Prop :=
  ∃ k, 0 < k ∧ plan.windowLength = 2 ^ k ∧ (2 ^ k ∣ plan.windowStart ∨
    s.segmentsPerExtent ∣ plan.windowStart ∧ s.segmentsPerExtent ∣ 2 ^ k)

/-- A plan that the code makes, with its window if it is for one. -/
structure Made (s : Pma) (segment : Nat) (plan : RebalanceMetadata) : Prop where
  planned : s.Planned segment plan
  aligned : plan.operation = .rebalance → s.Aligned plan

section Windows

variable {s : Pma} {segment : Nat} {plan : RebalanceMetadata}

/-- Where a window of `2 ^ k` segments starts. -/
theorem Framed.aligned (framed : s.Framed) {k : Nat} (fits : 2 ^ k ≤ s.storage.numberSegments)
    {start : Nat} (aligned : (start : Int) = s.storage.aligned segment k) :
    2 ^ k ∣ start ∨ s.segmentsPerExtent ∣ start ∧ s.segmentsPerExtent ∣ 2 ^ k := by
  obtain ⟨e, extent⟩ := framed.configured.segmentsPerExtent_eq.1
  unfold Storage.aligned at aligned
  split_ifs at aligned with inside
  · left
    have multiple : ((2 ^ k : Nat) : Int) ∣ (start : Int) := by
      rw [aligned]
      exact Dvd.intro_left _ (by push_cast; rfl)
    exact_mod_cast multiple
  · have place : start = s.storage.numberSegments - 2 ^ k := by
      have cast : ((2 ^ k : Nat) : Int) = 2 ^ k := by push_cast; rfl
      omega
    rcases Nat.le_total k e with less | greater
    · left
      rcases framed.shape with ⟨⟨j, power⟩, -⟩ | ⟨multiple, -⟩
      · rw [power] at fits place
        have le := (Nat.pow_le_pow_iff_right (by decide)).mp fits
        rw [place]
        exact Nat.dvd_sub (Nat.pow_dvd_pow 2 le) dvd_rfl
      · rw [place]
        rw [extent] at multiple
        exact Nat.dvd_sub ((Nat.pow_dvd_pow 2 less).trans multiple) dvd_rfl
    · have whole : s.segmentsPerExtent ∣ 2 ^ k := by
        rw [extent]
        exact Nat.pow_dvd_pow 2 greater
      refine Or.inr ⟨?_, whole⟩
      rw [place]
      exact Nat.dvd_sub (framed.dvd ((Nat.le_of_dvd (by positivity) whole).trans fits)) whole

/-- The plan of a rebalance is for an aligned window, unless it is to resize. -/
theorem Ready.aligned (ready : s.Ready segment) (inside : segment < s.storage.numberSegments)
    {isInsert : Bool} (several : isInsert = false → 2 ≤ s.storage.numberSegments)
    (full : isInsert = true → s.storage.segmentSizes segment = s.storage.segmentCapacity)
    (made : s.rebalance segment isInsert = some plan) (window : plan.operation = .rebalance) :
    s.Aligned plan := by
  have capacity := ready.framed.configured.capacity_le
  obtain ⟨r, found, rfl⟩ := Option.map_eq_some_iff.mp made
  have spreads : r.resize = false := by
    by_contra resizes
    rw [Bool.not_eq_false] at resizes
    rw [resizes] at window
    exact s.rebalancePlan_operation _ _ _ _ window
  have many : 2 ≤ s.storage.numberSegments := by
    by_contra one
    have positive := ready.framed.positive
    cases isInsert with
    | false => exact one (several rfl)
    | true =>
        have alone := @Storage.rebalanceFindWindow_one s.storage s.getThresholds segment (by omega)
          (by omega)
        rw [alone] at found
        obtain rfl := Option.some.inj found
        cases spreads
  obtain ⟨chain, windows, lengths⟩ := @Storage.windows_exist s.storage s.getThresholds isInsert
    segment inside ready.small full
  obtain ⟨r', found', chosen⟩ := windows.chosen lengths many
  rw [found] at found'
  obtain rfl := Option.some.inj found'
  obtain ⟨k, positive, le, start, length, -⟩ := chosen.found spreads
  have power : 2 ^ k ≤ s.storage.numberSegments := Nat.pow_le_of_le_log (by omega) le
  obtain ⟨w, reached, around⟩ := @Storage.windowAt_around s.storage s.getThresholds isInsert segment
    k inside ready.small full le
  have same : chain k = w := Option.some.inj ((windows.reached k le).symm.trans reached)
  rw [same, around.start] at start
  have bounds := Storage.aligned_bounds inside power
  have cast : ((2 ^ k : Nat) : Int) = 2 ^ k := by push_cast; rfl
  have placed := @Framed.aligned s segment ready.framed k power r.windowStart.toNat (by omega)
  rw [spreads]
  refine ⟨k, positive, ?_, placed⟩
  change r.windowLength.toNat = 2 ^ k
  omega

theorem Ready.made (ready : s.Ready segment) (inside : segment < s.storage.numberSegments)
    {isInsert : Bool} (several : isInsert = false → 2 ≤ s.storage.numberSegments)
    (full : isInsert = true → s.storage.segmentSizes segment = s.storage.segmentCapacity)
    (small : isInsert = true → s.storage.cardinality + 1 < 2 ^ 32)
    (made : s.rebalance segment isInsert = some plan) :
    s.Made segment plan ∧ plan.isInsert = isInsert := by
  refine ⟨⟨ready.planned inside several full small made,
    ready.aligned inside several full made⟩, ?_⟩
  obtain ⟨plan', rebalanced, same, -⟩ := ready.rebalance inside several full small
  rw [made] at rebalanced
  obtain rfl := Option.some.inj rebalanced
  exact same

/-- The plan after a removal. -/
theorem Ready.made_removal {value : Int} (ready : s.Ready segment)
    (inside : segment < s.storage.numberSegments) (made : s.removePlan segment value = some plan) :
    s.Made segment plan ∧ plan.isInsert = false := by
  unfold removePlan at made
  simp only at made
  split_ifs at made with _ half several _
  · have positive := ready.framed.configured.segmentsPerExtent_pos
    have many := half.1
    rw [balancedThresholdsCutoff] at many
    obtain rfl := Option.some.inj made
    refine ⟨⟨.shrink 0 0 (ready.shrinkRequest inside (by omega)) rfl, fun window => ?_⟩, ?_⟩
    · exact absurd window (s.rebalancePlan_operation false 0 0 _)
    · rw [rebalancePlan_shrink]
  · exact ready.made inside (fun _ => several)
      (fun insertion => absurd insertion Bool.false_ne_true)
      (fun insertion => absurd insertion Bool.false_ne_true) made

end Windows

end Pma

end Rma
