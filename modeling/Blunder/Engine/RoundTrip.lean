import Blunder.Engine.IntegratedPipeline

/-!
# What the round trip of a unit keeps

`process_batch` turns a unit into an `ExecutionUnitData`, and `convert_to_work_item` turns
that into the item that a worker executes. A bundle travels with its accounts and the
number of its transactions, but the item is built without both.

* `convertToWorkItem_toItem`: the round trip never fails.
* `roundTrips_iff`: it keeps transactions, and bundles without transactions.
-/

namespace Blunder.IntegratedPipeline

/-- A transaction counts as one. -/
def transactionCount : SchedulableUnit → ℕ
  | .bundle bundle => bundle.transactions.length
  | .transaction _ => 1

/-- The two are of one kind, have one id and the same accounts, and stand for as many
transactions. -/
structure SameWork (unit work : SchedulableUnit) : Prop where
  kind : work.isAtomic = unit.isAtomic
  unitId : work.unitId = unit.unitId
  allAccounts : work.allAccounts = unit.allAccounts
  transactionCount : transactionCount work = transactionCount unit

/-- The round trip of a unit succeeds with an item for what was submitted. -/
def RoundTrips (order : AccountOrder) (unit : SchedulableUnit) : Prop :=
  ∃ work, convertToWorkItem (toItem order unit) = .ok (.ofUnit work) ∧ SameWork unit work

theorem workUnit_isAtomic (unit : SchedulableUnit) : (workUnit unit).isAtomic = unit.isAtomic := by
  cases unit <;> rfl

/-- Kind and id are always kept. -/
theorem roundTrips_iff_workUnit (order : AccountOrder) (unit : SchedulableUnit) :
    RoundTrips order unit ↔ (workUnit unit).allAccounts = unit.allAccounts ∧
      transactionCount (workUnit unit) = transactionCount unit := by
  constructor
  · rintro ⟨work, hItem, hSame⟩
    rw [convertToWorkItem_toItem] at hItem
    have hWork : workUnit unit = work := by
      have hUnit := congrArg WorkItem.unit? (Except.ok.inj hItem)
      rw [WorkItem.unit?_ofUnit, WorkItem.unit?_ofUnit] at hUnit
      exact Option.some.inj hUnit
    rw [hWork]
    exact ⟨hSame.allAccounts, hSame.transactionCount⟩
  · rintro ⟨hAccounts, hCount⟩
    exact ⟨workUnit unit, convertToWorkItem_toItem order unit, workUnit_isAtomic unit,
      workUnit_unitId unit, hAccounts, hCount⟩

/-- The round trip keeps a unit exactly when it is no bundle with transactions. -/
theorem roundTrips_iff (order : AccountOrder) (unit : SchedulableUnit) :
    RoundTrips order unit ↔ ∀ bundle, unit = .bundle bundle → bundle.transactions = [] := by
  rw [roundTrips_iff_workUnit]
  cases unit with
  | transaction tx =>
    refine iff_of_true ⟨workUnit_allAccounts_of_transaction rfl, rfl⟩ ?_
    intro bundle hBundle
    cases hBundle
  | bundle bundle =>
    rw [workUnit_allAccounts_of_bundle rfl]
    constructor
    · rintro ⟨-, hCount⟩ _ ⟨⟩
      exact List.length_eq_zero_iff.mp hCount.symm
    · intro hEmpty
      have hNone : bundle.transactions = [] := hEmpty bundle rfl
      refine ⟨?_, ?_⟩
      · rw [SchedulableUnit.allAccounts, Bundle.allAccounts, hNone]
        rfl
      · rw [transactionCount, hNone]
        rfl

/-- A bundle with a transaction that writes account 7. -/
def account7Bundle : Bundle :=
  Bundle.new 1 [Transaction.new "tx" [AccountMeta.new (Pubkey.filled 7) true] 1 1] 1 "s"

theorem not_roundTrips :
    ¬ ∀ (order : AccountOrder) (unit : SchedulableUnit), RoundTrips order unit := by
  intro hAll
  obtain ⟨-, hCount⟩ := (roundTrips_iff_workUnit .listed (.bundle account7Bundle)).mp
    (hAll .listed (.bundle account7Bundle))
  cases hCount

end Blunder.IntegratedPipeline
