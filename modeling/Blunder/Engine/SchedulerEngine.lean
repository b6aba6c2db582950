import Blunder.Core.Protocol
import Blunder.Foundation.Decimal
import Blunder.Scheduler.Adaptive

/-!
# The scheduling engine

Without an external scheduler, `SchedulerEngine::schedule` turns execution units back
into bundles and transactions with default limits and prices and hands them to the
adaptive scheduler. The accounts of a bundle are dropped.
-/

namespace Blunder.SchedulerEngine

variable {workerCount : ℕ}

/-- The transaction with the default limit and price for the given accounts. -/
def defaultTransaction (id : String) (accounts : List AccountKey) : Transaction :=
  Transaction.new id (accounts.map fun bytes => AccountMeta.new (Pubkey.newFromArray bytes) true)
    100000 1000

/-- The bundle without transactions that stands for a bundle. -/
def defaultBundle (id tip : UInt64) : Bundle := Bundle.new id [] tip "default_searcher"

def convertExecutionUnits : List ExecutionUnitData → List Bundle × List Transaction
  | [] => ([], [])
  | .transaction id _ accounts :: items =>
    let (bundles, transactions) := convertExecutionUnits items
    (bundles, defaultTransaction id accounts :: transactions)
  | .bundle id tip _ _ :: items =>
    let (bundles, transactions) := convertExecutionUnits items
    (defaultBundle ((Foundation.Decimal.parseU64 id).getD 0) tip :: bundles, transactions)

def schedule (heap : PrioGraphScheduler.BinaryHeap) (scheduler : AdaptiveScheduler workerCount)
    (items : List ExecutionUnitData) :
    AdaptiveScheduler workerCount × Except Panic (List WorkerAssignment) :=
  let (bundles, transactions) := convertExecutionUnits items
  scheduler.schedule heap bundles transactions

/-- The scheduler of an engine after a number of calls. -/
def afterCalls (heap : PrioGraphScheduler.BinaryHeap) (workerCount : ℕ)
    (calls : List (List ExecutionUnitData)) : AdaptiveScheduler workerCount :=
  calls.foldl (fun scheduler items => (schedule heap scheduler items).1)
    (AdaptiveScheduler.new workerCount)

theorem afterCalls_threshold (heap : PrioGraphScheduler.BinaryHeap) (workerCount : ℕ)
    (calls : List (List ExecutionUnitData)) :
    (afterCalls heap workerCount calls).loadMonitor.highThreshold = 2000 := by
  induction calls using List.reverseRecOn with
  | nil => rfl
  | append_singleton calls items ih =>
    rw [afterCalls, List.foldl_append]
    exact AdaptiveScheduler.schedule_threshold.trans ih

end Blunder.SchedulerEngine
