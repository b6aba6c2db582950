import Blunder.Engine.Prioritizer
import Blunder.Scheduler.PrioGraph

/-!
# The two priority formulas

The prioritizer and the priority graph each compute a fee per compute unit. The
prioritizer gives `0` to a unit without compute units; the graph divides by at least `1`,
so a bundle without compute units keeps its tip. Transactions come out alike, and close
to their price.

* `priority_eq_calculateScore_iff`: the units on which the formulas agree.
* `transactionPriority_bounds`: the priority of a transaction is its price up to rounding.
-/

namespace Blunder.Prioritizer

/-- The priority of a unit in the priority graph. -/
def priority (unit : SchedulableUnit) : UInt64 := (PrioGraphScheduler.unitNode unit).priority

theorem max_one_of_ne_zero {cu : UInt64} (h : cu ≠ 0) : max cu 1 = cu := by
  show (if cu ≤ 1 then (1 : UInt64) else cu) = cu
  split
  · rename_i hLe
    have hLe' : cu.toNat ≤ 1 := hLe
    have hPos : cu.toNat ≠ 0 := fun hZero => h (UInt64.toNat_inj.mp hZero)
    exact UInt64.toNat_inj.mp (show (1 : UInt64).toNat = cu.toNat from by simp; omega)
  · rfl

/-- Without compute units a transaction pays no fee. -/
theorem calculateScore_transaction (tx : Transaction) :
    calculateScore (.transaction tx) = priority (.transaction tx) := by
  show (if tx.computeUnitLimit = 0 then 0
    else saturatingDiv (saturatingMul tx.priorityScore 1000000) tx.computeUnitLimit) =
      saturatingDiv (saturatingMul tx.priorityScore 1000000) (max tx.computeUnitLimit 1)
  split
  · rename_i hZero
    have hFee : tx.priorityScore = 0 := by
      simp [Transaction.priorityScore, hZero, saturatingMul, saturatingDiv]
    simp [hFee, saturatingMul, saturatingDiv]
  · rename_i hPos
    rw [max_one_of_ne_zero hPos]

theorem calculateScore_bundle {bundle : Bundle} (h : bundle.totalComputeUnits ≠ 0) :
    calculateScore (.bundle bundle) = priority (.bundle bundle) := by
  have hScore : calculateScore (.bundle bundle) =
      saturatingDiv (saturatingMul bundle.tip 1000000) bundle.totalComputeUnits := if_neg h
  rw [hScore, ← max_one_of_ne_zero h]
  rfl

/-- A bundle without compute units has its tip as priority, and no score. -/
theorem calculateScore_bundle_zero {bundle : Bundle} (h : bundle.totalComputeUnits = 0) :
    calculateScore (.bundle bundle) = 0 ∧
      priority (.bundle bundle) = saturatingMul bundle.tip 1000000 := by
  refine ⟨if_pos h, ?_⟩
  show saturatingDiv (saturatingMul bundle.tip 1000000) (max bundle.totalComputeUnits 1) = _
  rw [h]
  exact UInt64.div_one

theorem score_eq_priority_or (unit : SchedulableUnit) :
    calculateScore unit = priority unit ∨
      ∃ bundle, unit = .bundle bundle ∧ bundle.totalComputeUnits = 0 := by
  cases unit with
  | transaction tx => exact Or.inl (calculateScore_transaction tx)
  | bundle bundle =>
    by_cases hZero : bundle.totalComputeUnits = 0
    · exact Or.inr ⟨bundle, rfl, hZero⟩
    · exact Or.inl (calculateScore_bundle hZero)

theorem calculateScore_of_ne_zero {unit : SchedulableUnit} (h : calculateScore unit ≠ 0) :
    calculateScore unit = priority unit := by
  rcases score_eq_priority_or unit with hSame | ⟨bundle, rfl, hZero⟩
  · exact hSame
  · exact absurd (calculateScore_bundle_zero hZero).1 h

/-- The formulas agree except on a bundle that pays a tip for no compute units. -/
theorem priority_eq_calculateScore_iff (unit : SchedulableUnit) :
    priority unit = calculateScore unit ↔
      ∀ bundle, unit = .bundle bundle → bundle.totalComputeUnits = 0 → bundle.tip = 0 := by
  constructor
  · rintro hSame bundle rfl hZero
    obtain ⟨hNone, hTip⟩ := calculateScore_bundle_zero hZero
    rw [hNone, hTip] at hSame
    have hNat := congrArg UInt64.toNat hSame
    rw [toNat_saturatingMul] at hNat
    refine UInt64.toNat_inj.mp ?_
    simp only [UInt64.size, UInt64.reduceToNat] at hNat ⊢
    omega
  · intro hTips
    rcases score_eq_priority_or unit with hSame | ⟨bundle, rfl, hZero⟩
    · exact hSame.symm
    · obtain ⟨hNone, hTip⟩ := calculateScore_bundle_zero hZero
      rw [hNone, hTip, hTips bundle rfl hZero]
      rfl

/-- A bundle with a tip and no transactions. -/
def emptyBundle : Bundle := Bundle.new 1 [] 1 "s"

theorem not_priority_eq_calculateScore :
    ¬ ∀ unit : SchedulableUnit, (∀ bundle, unit = .bundle bundle →
        (bundle.transactions.map fun tx => tx.computeUnitLimit.toNat).sum < UInt64.size) →
      priority unit = calculateScore unit := by
  intro hAll
  refine absurd (hAll (.bundle emptyBundle) ?_) (by decide)
  intro bundle hBundle
  cases hBundle
  decide

/-! ## The priority of a transaction -/

theorem toNat_priority_transaction {tx : Transaction} (hLimit : 0 < tx.computeUnitLimit) :
    (priority (.transaction tx)).toNat =
      min (tx.computeUnitPrice.toNat * tx.computeUnitLimit.toNat) (UInt64.size - 1) / 1000000 *
        1000000 / tx.computeUnitLimit.toNat := by
  have hPriority : priority (.transaction tx) =
      saturatingDiv (saturatingMul tx.priorityScore 1000000) tx.computeUnitLimit := by
    have hNe : tx.computeUnitLimit ≠ 0 := by
      intro hZero
      rw [hZero] at hLimit
      exact absurd hLimit (by decide)
    have hMax := max_one_of_ne_zero hNe
    rw [priority, PrioGraphScheduler.unitNode, PrioGraphScheduler.transactionNode, hMax]
    rfl
  have hFee : tx.priorityScore.toNat =
      min (tx.computeUnitPrice.toNat * tx.computeUnitLimit.toNat) (UInt64.size - 1) / 1000000 := by
    rw [Transaction.priorityScore, toNat_saturatingDiv, toNat_saturatingMul]
    rfl
  have hMillion : (1000000 : UInt64).toNat = 1000000 := rfl
  rw [hPriority, toNat_saturatingDiv, toNat_saturatingMul, hFee, hMillion]
  -- the fee times a million is at most the clipped product it was divided from
  rw [Nat.min_eq_left]
  exact (Nat.div_mul_le_self _ _).trans (Nat.min_le_right _ _)

/-- The priority is at most the price, loses less than the two roundings, and rises with
the price. -/
theorem transactionPriority_bounds (tx : Transaction) (hLimit : 0 < tx.computeUnitLimit) :
    let p := tx.computeUnitPrice.toNat
    let c := tx.computeUnitLimit.toNat
    let S := (PrioGraphScheduler.transactionNode tx).priority.toNat
    S ≤ p ∧ (p * c < UInt64.size → c * p < c * S + c + 1000000) ∧
      ∀ tx' : Transaction, tx'.computeUnitLimit = tx.computeUnitLimit →
        tx.computeUnitPrice ≤ tx'.computeUnitPrice →
          (PrioGraphScheduler.transactionNode tx).priority ≤
            (PrioGraphScheduler.transactionNode tx').priority := by
  intro p c S
  have hc : 0 < c := hLimit
  have hS : S = min (p * c) (UInt64.size - 1) / 1000000 * 1000000 / c :=
    toNat_priority_transaction hLimit
  refine ⟨?_, ?_, ?_⟩
  · rw [hS]
    refine Nat.div_le_of_le_mul ?_
    rw [Nat.mul_comm c p]
    exact (Nat.div_mul_le_self _ _).trans (Nat.min_le_left _ _)
  · intro hFits
    rw [Nat.min_eq_left (Nat.le_sub_one_of_lt hFits)] at hS
    have hOuter : p * c / 1000000 * 1000000 < c * (S + 1) := by
      rw [hS]
      exact Nat.lt_mul_div_succ _ hc
    have hInner : p * c < 1000000 * (p * c / 1000000 + 1) := Nat.lt_mul_div_succ _ (by omega)
    rw [Nat.mul_comm c p]
    rw [Nat.mul_add, Nat.mul_one] at hOuter
    omega
  · intro tx' hSame hPrice
    have hLimit' : 0 < tx'.computeUnitLimit := by rwa [hSame]
    have hS' := toNat_priority_transaction hLimit'
    rw [hSame] at hS'
    have hPrices : p ≤ tx'.computeUnitPrice.toNat := hPrice
    refine UInt64.le_iff_toNat_le.mpr ?_
    calc S = min (p * c) (UInt64.size - 1) / 1000000 * 1000000 / c := hS
      _ ≤ min (tx'.computeUnitPrice.toNat * c) (UInt64.size - 1) / 1000000 * 1000000 / c := by
        gcongr
      _ = (PrioGraphScheduler.transactionNode tx').priority.toNat := hS'.symm

/-- A price of 3 for 10 compute units is rounded to no fee. -/
theorem transactionPriority_bounds_rounded :
    (PrioGraphScheduler.transactionNode (Transaction.new "tx" [] 10 3)).priority.toNat ≤ 3 :=
  (transactionPriority_bounds (Transaction.new "tx" [] 10 3) (by decide)).1

end Blunder.Prioritizer
