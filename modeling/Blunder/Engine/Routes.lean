import Blunder.Engine.IntegratedPipeline

/-!
# The two internal routes to the adaptive scheduler

`TpuPipeline` hands bundles and transactions to the adaptive scheduler as they are.
`IntegratedPipeline` sends them through execution units, which carry neither limits nor
transaction lists: every transaction comes out with the default limit and price.

* `schedule_batchItems`: the second route is the first one for the same ids, tips and
  transaction accounts under the default limit and price.
-/

namespace Blunder.IntegratedPipeline

variable {workerCount : ℕ}

/-- The transaction under the default limit and price. -/
def withDefaultPrice (tx : Transaction) : Transaction :=
  { tx with computeUnitLimit := 100000, computeUnitPrice := 1000 }

/-- What an execution unit keeps of a bundle: its id and tip. Of its transactions some
may be missing. -/
structure KeepsBundle (b b' : Bundle) : Prop where
  id : b'.id = b.id
  tip : b'.tip = b.tip
  transactions : b'.transactions.Sublist b.transactions

/-- The two conversions, one after the other. -/
theorem convertExecutionUnits_batchItems (order : AccountOrder) (transactions : List Transaction)
    (bundles : List Bundle) :
    SchedulerEngine.convertExecutionUnits (batchItems order transactions bundles) =
      (bundles.map fun b => SchedulerEngine.defaultBundle b.id b.tip,
        transactions.map fun tx => SchedulerEngine.defaultTransaction tx.signature
          (tx.accounts.map fun account => account.pubkey.toBytes)) := by
  have hBundles : SchedulerEngine.convertExecutionUnits
      ((bundles.map SchedulableUnit.bundle).map (toItem order)) =
        (bundles.map fun b => SchedulerEngine.defaultBundle b.id b.tip, []) := by
    induction bundles with
    | nil => rfl
    | cons b bundles ih =>
      simp only [List.map_cons, toItem, SchedulerEngine.convertExecutionUnits, ih,
        Foundation.Decimal.parseU64_toString, Option.getD_some]
  rw [batchItems, submitted, List.map_append]
  induction transactions with
  | nil => exact hBundles
  | cons tx transactions ih =>
    simp only [List.map_cons, List.cons_append, toItem, SchedulerEngine.convertExecutionUnits, ih]

/-- A scheduler sees no difference between the transaction that comes out and the
submitted one under the default limit and price. -/
theorem transactionNode_defaultTransaction (tx : Transaction) :
    PrioGraphScheduler.transactionNode (SchedulerEngine.defaultTransaction tx.signature
        (tx.accounts.map fun account => account.pubkey.toBytes)) =
      PrioGraphScheduler.transactionNode (withDefaultPrice tx) := by
  have hAccounts : (SchedulerEngine.defaultTransaction tx.signature
      (tx.accounts.map fun account => account.pubkey.toBytes)).allAccounts = tx.allAccounts := by
    have hKind : (SchedulableUnit.transaction tx).isAtomic = false := rfl
    exact workUnit_allAccounts_of_transaction hKind
  rw [PrioGraphScheduler.transactionNode, hAccounts]
  rfl

/-- Through execution units the adaptive scheduler gets the bundles with their ids and
tips, and the transactions with their signatures and accounts under the default limit
and price, in the order of the batch. -/
theorem schedule_batchItems (heap : PrioGraphScheduler.BinaryHeap) (order : AccountOrder)
    (workerCount : ℕ) (bundles : List Bundle) (transactions : List Transaction) :
    ∃ bundles', List.Forall₂ KeepsBundle bundles bundles' ∧
      SchedulerEngine.schedule heap (AdaptiveScheduler.new workerCount)
          (batchItems order transactions bundles) =
        (AdaptiveScheduler.new workerCount).schedule heap bundles'
          (transactions.map withDefaultPrice) := by
  refine ⟨bundles.map fun b => SchedulerEngine.defaultBundle b.id b.tip, ?_, ?_⟩
  · rw [List.forall₂_map_right_iff, List.forall₂_same]
    intro b _
    exact ⟨rfl, rfl, List.nil_sublist _⟩
  · have hTxs : (transactions.map fun tx => SchedulerEngine.defaultTransaction tx.signature
        (tx.accounts.map fun account => account.pubkey.toBytes)).map
          PrioGraphScheduler.transactionNode =
        (transactions.map withDefaultPrice).map PrioGraphScheduler.transactionNode := by
      rw [List.map_map, List.map_map]
      apply List.map_congr_left
      intro tx _
      exact transactionNode_defaultTransaction tx
    rw [SchedulerEngine.schedule, convertExecutionUnits_batchItems]
    apply AdaptiveScheduler.schedule_congr
    rw [PrioGraphScheduler.buildNodes, PrioGraphScheduler.buildNodes, hTxs]

/-- Two transactions that write account 7, the second with the higher limit and so the higher
priority. -/
def twoLimits : List Transaction :=
  [Transaction.new "a" [AccountMeta.new (Pubkey.filled 7) true] 1 1,
    Transaction.new "b" [AccountMeta.new (Pubkey.filled 7) true] 1000000 1]

/-- The submitted prices and limits do not reach the scheduler: it is given equal ones
and keeps the order of the batch. -/
theorem not_routes_agree :
    ¬ ∀ (heap : PrioGraphScheduler.BinaryHeap) (order : AccountOrder) (workerCount : ℕ)
      (bundles : List Bundle) (transactions : List Transaction), 1 ≤ workerCount →
      (SchedulerEngine.schedule heap (AdaptiveScheduler.new workerCount)
          (batchItems order transactions bundles)).2 =
        ((AdaptiveScheduler.new workerCount).schedule heap bundles transactions).2 := by
  intro hAgree
  have h := hAgree (fun _ => Foundation.PriorityQueue.MaxHeap.ofList _) AccountOrder.listed 1 []
    twoLimits le_rfl
  have hRoute : (SchedulerEngine.schedule (fun _ => Foundation.PriorityQueue.MaxHeap.ofList _)
      (AdaptiveScheduler.new 1) (batchItems AccountOrder.listed twoLimits [])).2 =
        .ok [⟨"a", 0, false⟩, ⟨"b", 0, false⟩] := rfl
  have hDirect : ((AdaptiveScheduler.new 1).schedule
      (fun _ => Foundation.PriorityQueue.MaxHeap.ofList _) [] twoLimits).2 =
        .ok [⟨"b", 0, false⟩, ⟨"a", 0, false⟩] := rfl
  rw [hRoute, hDirect] at h
  exact absurd (Except.ok.inj h) (by decide)

end Blunder.IntegratedPipeline
