import Blunder.Core.Basic
import Blunder.Foundation.StableSort

/-!
# The prioritizer

`Prioritizer::prioritize` ranks the units of a batch by fee per compute unit, in
millionths. The sort is stable, so bundles come before transactions of the same score.
The product of the fee and a million saturates, so a score cannot exceed what is left of
`u64::MAX` for each compute unit.

* `toNat_calculateScore`: the score is the exact one, cut off at the `cap` of the unit.
* `score_order_iff`: when scores are ordered as the exact ratios are.
-/

namespace Blunder.Prioritizer

open Foundation.StableSort

/-- A unit without compute units scores `0`. -/
def calculateScore (unit : SchedulableUnit) : UInt64 :=
  let cu := unit.computeUnits
  if cu = 0 then 0 else saturatingDiv (saturatingMul unit.priorityScore 1000000) cu

def prioritize (bundles : List Bundle) (looseTxs : List Transaction) : List SchedulableUnit :=
  sortByKeyRev (fun unit => (calculateScore unit).toNat)
    (bundles.map .bundle ++ looseTxs.map .transaction)

theorem prioritize_perm (bundles : List Bundle) (looseTxs : List Transaction) :
    (prioritize bundles looseTxs).Perm (bundles.map .bundle ++ looseTxs.map .transaction) :=
  sortByKeyRev_perm _ _

/-- The units come out by descending score. -/
theorem prioritize_pairwise (bundles : List Bundle) (looseTxs : List Transaction) :
    (prioritize bundles looseTxs).Pairwise fun a b => calculateScore b ≤ calculateScore a := by
  have hRanked : (prioritize bundles looseTxs).Pairwise
      (Ranked (fun unit => (calculateScore unit).toNat) fun _ _ => True) :=
    pairwise_sortByKeyRev (List.pairwise_of_forall fun _ _ => trivial)
  exact hRanked.imp fun h => h.key_le

/-! ## Exact scores -/

/-- The score without saturation. -/
def exactScore (unit : SchedulableUnit) : ℕ :=
  unit.priorityScore.toNat * 1000000 / unit.computeUnits.toNat

/-- The largest score of a unit with its compute units. -/
def cap (unit : SchedulableUnit) : ℕ := (UInt64.size - 1) / unit.computeUnits.toNat

/-- The unit has at least the fee per compute unit of the other. -/
def RatioLe (b a : SchedulableUnit) : Prop :=
  b.priorityScore.toNat * a.computeUnits.toNat ≤ a.priorityScore.toNat * b.computeUnits.toNat

theorem min_div (a b c : ℕ) : min a b / c = min (a / c) (b / c) := by
  have hMono : Monotone fun n => n / c := fun _ _ h => Nat.div_le_div_right h
  exact hMono.map_min

theorem toNat_calculateScore {unit : SchedulableUnit} (hPos : 0 < unit.computeUnits) :
    (calculateScore unit).toNat = min (exactScore unit) (cap unit) := by
  have hScore : calculateScore unit =
      saturatingDiv (saturatingMul unit.priorityScore 1000000) unit.computeUnits := by
    refine if_neg ?_
    intro hZero
    rw [hZero] at hPos
    exact absurd hPos (by decide)
  rw [hScore, toNat_saturatingDiv, toNat_saturatingMul, min_div]
  rfl

/-- Rounding down keeps the order of the ratios. -/
theorem exactScore_le {a b : SchedulableUnit} (ha : 0 < a.computeUnits) (hb : 0 < b.computeUnits)
    (hRatio : RatioLe b a) : exactScore b ≤ exactScore a := by
  have haPos : 0 < a.computeUnits.toNat := ha
  have hbPos : 0 < b.computeUnits.toNat := hb
  unfold exactScore
  rw [Nat.le_div_iff_mul_le haPos]
  refine Nat.le_of_mul_le_mul_right ?_ hbPos
  calc b.priorityScore.toNat * 1000000 / b.computeUnits.toNat * a.computeUnits.toNat *
        b.computeUnits.toNat
      = b.priorityScore.toNat * 1000000 / b.computeUnits.toNat * b.computeUnits.toNat *
        a.computeUnits.toNat := Nat.mul_right_comm _ _ _
    _ ≤ b.priorityScore.toNat * 1000000 * a.computeUnits.toNat :=
        Nat.mul_le_mul_right _ (Nat.div_mul_le_self _ _)
    _ = b.priorityScore.toNat * a.computeUnits.toNat * 1000000 := Nat.mul_right_comm _ _ _
    _ ≤ a.priorityScore.toNat * b.computeUnits.toNat * 1000000 := Nat.mul_le_mul_right _ hRatio
    _ = a.priorityScore.toNat * 1000000 * b.computeUnits.toNat := Nat.mul_right_comm _ _ _

/-- A larger ratio gives a score that is not lower, unless the cap of the unit with the
larger ratio cuts off what the other one keeps. -/
theorem calculateScore_le_iff {a b : SchedulableUnit} (ha : 0 < a.computeUnits)
    (hb : 0 < b.computeUnits) (hRatio : RatioLe b a) :
    calculateScore b ≤ calculateScore a ↔ exactScore b ≤ cap a ∨ cap b ≤ cap a := by
  have hExact := exactScore_le ha hb hRatio
  rw [UInt64.le_iff_toNat_le, toNat_calculateScore ha, toNat_calculateScore hb]
  omega

/-- In a batch: a unit with the higher exact score is not cut off below another one, and
not to the score of one that is submitted before it. -/
structure CapsKeepOrder (units : List SchedulableUnit) : Prop where
  below : ∀ a ∈ units, ∀ b ∈ units, 0 < a.computeUnits → 0 < b.computeUnits →
    exactScore a < exactScore b → exactScore a ≤ cap b ∨ cap a ≤ cap b
  tied : units.Pairwise fun a b => 0 < a.computeUnits → 0 < b.computeUnits →
    exactScore a < exactScore b → cap b ≠ min (exactScore a) (cap a)

theorem prioritize_exactScore_iff (bundles : List Bundle) (looseTxs : List Transaction) :
    ((prioritize bundles looseTxs).Pairwise fun a b => 0 < a.computeUnits → 0 < b.computeUnits →
        exactScore b ≤ exactScore a) ↔
      CapsKeepOrder (bundles.map .bundle ++ looseTxs.map .transaction) := by
  rw [prioritize, pairwise_sortByKeyRev_iff]
  constructor
  · rintro ⟨hLarger, hEqual⟩
    constructor
    · intro a ha b hb haPos hbPos hLt
      by_contra hCut
      have hScores : (calculateScore b).toNat < (calculateScore a).toNat := by
        rw [toNat_calculateScore haPos, toNat_calculateScore hbPos]
        omega
      exact absurd (hLarger a ha b hb hScores haPos hbPos) (Nat.not_le.mpr hLt)
    · refine hEqual.imp ?_
      intro a b hR haPos hbPos hLt hCap
      have hScores : (calculateScore a).toNat = (calculateScore b).toNat := by
        rw [toNat_calculateScore haPos, toNat_calculateScore hbPos]
        omega
      exact absurd (hR hScores haPos hbPos) (Nat.not_le.mpr hLt)
  · rintro ⟨hBelow, hTied⟩
    constructor
    · intro a ha b hb hScores haPos hbPos
      rw [toNat_calculateScore haPos, toNat_calculateScore hbPos] at hScores
      by_contra hLt
      have hCut := hBelow a ha b hb haPos hbPos (Nat.lt_of_not_le hLt)
      omega
    · refine hTied.imp ?_
      intro a b hCap hScores haPos hbPos
      rw [toNat_calculateScore haPos, toNat_calculateScore hbPos] at hScores
      by_contra hLt
      have hNe := hCap haPos hbPos (Nat.lt_of_not_le hLt)
      omega

/-- When the scores respect the exact ratios: for two units, and along the list that is
returned for a batch. -/
theorem score_order_iff (a b : SchedulableUnit) (bundles : List Bundle)
    (looseTxs : List Transaction) :
    ((0 < a.computeUnits → 0 < b.computeUnits → RatioLe b a →
        calculateScore b ≤ calculateScore a) ↔
      (0 < a.computeUnits → 0 < b.computeUnits → RatioLe b a →
        exactScore b ≤ cap a ∨ cap b ≤ cap a)) ∧
    (((prioritize bundles looseTxs).Pairwise fun a b => 0 < a.computeUnits →
        0 < b.computeUnits → exactScore b ≤ exactScore a) ↔
      CapsKeepOrder (bundles.map .bundle ++ looseTxs.map .transaction)) := by
  refine ⟨?_, prioritize_exactScore_iff bundles looseTxs⟩
  refine forall_congr' fun ha => forall_congr' fun hb => forall_congr' fun hRatio => ?_
  exact calculateScore_le_iff ha hb hRatio

/-- A bundle with one transaction of `limit` compute units. -/
def bundleOf (limit tip : UInt64) : SchedulableUnit :=
  .bundle (Bundle.new 1 [Transaction.new "tx" [] limit 0] tip "s")

/-- A tip of `10 ^ 15` for `10 ^ 6` compute units is worth that of `10 ^ 12` for `10 ^ 3`,
but the product with a million saturates. -/
theorem not_score_order :
    ¬ ((∀ a b : SchedulableUnit, 0 < a.computeUnits → 0 < b.computeUnits → RatioLe b a →
        calculateScore b ≤ calculateScore a) ∧
      ∀ (bundles : List Bundle) (looseTxs : List Transaction),
        (prioritize bundles looseTxs).Pairwise fun a b => 0 < a.computeUnits →
          0 < b.computeUnits → exactScore b ≤ exactScore a) := by
  intro hAll
  have hRatio : RatioLe (bundleOf 1000 1000000000000) (bundleOf 1000000 1000000000000000) :=
    Nat.le_of_eq rfl
  exact absurd (hAll.1 _ _ (by decide) (by decide) hRatio) (by decide)

end Blunder.Prioritizer
