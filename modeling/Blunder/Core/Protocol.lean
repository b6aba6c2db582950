import Blunder.Core.Basic

/-!
# Execution units on the wire

`ExecutionUnitData` is the form in which a unit reaches a scheduler. The accounts of a
bundle come out of a `HashSet`, in an order that is a parameter (`AccountOrder`). An
external scheduler is sent `EngineMessage`s and answers with `SchedulerMessage`s.
-/

namespace Blunder

inductive ExecutionUnitData
  | transaction (id : String) (priority : UInt64) (accounts : List AccountKey)
  | bundle (id : String) (tip : UInt64) (accounts : List AccountKey) (numTransactions : ℕ)
deriving DecidableEq

def ExecutionUnitData.id : ExecutionUnitData → String
  | .transaction id _ _ => id
  | .bundle id _ _ _ => id

def ExecutionUnitData.accounts : ExecutionUnitData → List AccountKey
  | .transaction _ _ accounts => accounts
  | .bundle _ _ accounts _ => accounts

/-- The kind of a unit. -/
def ExecutionUnitData.isBundle : ExecutionUnitData → Bool
  | .transaction .. => false
  | .bundle .. => true

inductive EngineMessage
  | scheduleRequest (requestId : UInt64) (items : List ExecutionUnitData) (workerCount : ℕ)
  | workerCompleted (workerId : ℕ) (itemId : String) (success : Bool) (computeUnits : UInt64)
  | heartbeat (timestampUs : UInt64)
deriving DecidableEq

inductive SchedulerMessage
  | scheduleResponse (requestId : UInt64) (assignments : List WorkerAssignment)
  | heartbeatAck (timestampUs : UInt64)
  | ready
deriving DecidableEq

/-- The order in which the account set of a bundle is iterated. -/
structure AccountOrder where
  toList : Bundle → List Pubkey
  toFinset_toList : ∀ bundle, (toList bundle).toFinset = bundle.allAccounts

/-- The accounts in the order in which the transactions list them. -/
def AccountOrder.listed : AccountOrder where
  toList bundle := bundle.transactions.flatMap fun tx => tx.accounts.map AccountMeta.pubkey
  toFinset_toList bundle := by
    ext acc
    rw [Bundle.mem_allAccounts]
    simp [Transaction.allAccounts]

end Blunder
