import Mathlib.Data.Finset.Lattice.Fold
import Mathlib.Data.Finset.Union
import Mathlib.Data.Vector.Basic

/-!
# Transactions, bundles and schedulable units

The data model of `core/src`. A `HashSet<Pubkey>` is a `Finset`, a `u64` a `UInt64`
whose plain additions wrap as in a release build, and a `usize` a natural number.
Ids travel as text: a bundle id is printed in decimal, a signature is kept as it is.
-/

namespace Blunder

/-! ## Accounts -/

/-- A raw 32-byte account key, `[u8; 32]`. -/
abbrev AccountKey := List.Vector UInt8 32

/-- `solana_program::pubkey::Pubkey`. -/
structure Pubkey where
  bytes : AccountKey
deriving DecidableEq

namespace Pubkey

def newFromArray (bytes : AccountKey) : Pubkey := ⟨bytes⟩

def toBytes (key : Pubkey) : AccountKey := key.bytes

/-- The key whose bytes are all `b`. -/
def filled (b : UInt8) : Pubkey := ⟨List.Vector.replicate 32 b⟩

end Pubkey

/-- `solana_program::instruction::AccountMeta`. -/
structure AccountMeta where
  pubkey : Pubkey
  isSigner : Bool
  isWritable : Bool
deriving DecidableEq

/-- `AccountMeta::new` makes the account writable. -/
def AccountMeta.new (pubkey : Pubkey) (isSigner : Bool) : AccountMeta :=
  ⟨pubkey, isSigner, true⟩

/-! ## Errors -/

inductive MevError
  | bundleExecutionFailed (message : String)
  | lockAcquisitionFailed
  | schedulerError (message : String)
  | validationError (message : String)
  | accountNotFound (message : String)
  | invalidTransaction (message : String)
  | initError (message : String)
  | networkError (message : String)
  | serializationError (message : String)
  | timeout (message : String)
  | invalidAssignment (message : String)
deriving DecidableEq

/-- The `Display` text of an error. -/
def MevError.display : MevError → String
  | .bundleExecutionFailed message => "Bundle execution failed: " ++ message
  | .lockAcquisitionFailed => "Lock acquisition failed"
  | .schedulerError message => "Scheduler error: " ++ message
  | .validationError message => "Validation error: " ++ message
  | .accountNotFound message => "Account not found: " ++ message
  | .invalidTransaction message => "Invalid transaction: " ++ message
  | .initError message => "Initialization error: " ++ message
  | .networkError message => "Network error: " ++ message
  | .serializationError message => "Serialization error: " ++ message
  | .timeout message => "Timeout: " ++ message
  | .invalidAssignment message => "Invalid assignment: " ++ message

/-! ## Machine arithmetic -/

/-- `u64::saturating_mul`. -/
def saturatingMul (a b : UInt64) : UInt64 :=
  UInt64.ofNat (min (a.toNat * b.toNat) (UInt64.size - 1))

/-- `u64::saturating_div`: unsigned division never saturates. -/
def saturatingDiv (a b : UInt64) : UInt64 := a / b

@[simp] theorem toNat_saturatingMul (a b : UInt64) :
    (saturatingMul a b).toNat = min (a.toNat * b.toNat) (UInt64.size - 1) := by
  rw [saturatingMul, UInt64.toNat_ofNat']
  exact Nat.mod_eq_of_lt (Nat.lt_of_le_of_lt (Nat.min_le_right _ _) (by decide))

@[simp] theorem toNat_saturatingDiv (a b : UInt64) :
    (saturatingDiv a b).toNat = a.toNat / b.toNat := UInt64.toNat_div a b

/-! ## Transactions -/

structure Instruction where
  programId : Pubkey
  accountIndices : List ℕ
  data : List UInt8
deriving DecidableEq

structure Transaction where
  signature : String
  accounts : List AccountMeta
  instructions : List Instruction
  computeUnitLimit : UInt64
  computeUnitPrice : UInt64
  blockhash : String
  sequence : UInt64
deriving DecidableEq

namespace Transaction

def new (signature : String) (accounts : List AccountMeta)
    (computeUnitLimit computeUnitPrice : UInt64) : Transaction :=
  { signature, accounts, computeUnitLimit, computeUnitPrice,
    instructions := [], blockhash := "", sequence := 0 }

def allAccounts (tx : Transaction) : Finset Pubkey :=
  (tx.accounts.map AccountMeta.pubkey).toFinset

def priorityScore (tx : Transaction) : UInt64 :=
  saturatingDiv (saturatingMul tx.computeUnitPrice tx.computeUnitLimit) 1000000

end Transaction

/-! ## Bundles -/

structure Bundle where
  id : UInt64
  transactions : List Transaction
  tip : UInt64
  searcherId : String
  atomic : Bool
deriving DecidableEq

namespace Bundle

def new (id : UInt64) (transactions : List Transaction) (tip : UInt64) (searcherId : String) :
    Bundle :=
  { id, transactions, tip, searcherId, atomic := true }

/-- The sum wraps. -/
def totalComputeUnits (bundle : Bundle) : UInt64 :=
  (bundle.transactions.map Transaction.computeUnitLimit).foldl (· + ·) 0

def allAccounts (bundle : Bundle) : Finset Pubkey :=
  (bundle.transactions.map Transaction.allAccounts).foldr (· ∪ ·) ∅

def priorityScore (bundle : Bundle) : UInt64 := bundle.tip

theorem mem_allAccounts {bundle : Bundle} {acc : Pubkey} :
    acc ∈ bundle.allAccounts ↔ ∃ tx ∈ bundle.transactions, acc ∈ tx.allAccounts := by
  unfold allAccounts
  induction bundle.transactions with
  | nil => simp
  | cons tx txs ih => simp [ih]

end Bundle

/-! ## Schedulable units -/

inductive SchedulableUnit
  | bundle (bundle : Bundle)
  | transaction (tx : Transaction)
deriving DecidableEq

namespace SchedulableUnit

def isAtomic : SchedulableUnit → Bool
  | .bundle _ => true
  | .transaction _ => false

def computeUnits : SchedulableUnit → UInt64
  | .bundle b => b.totalComputeUnits
  | .transaction tx => tx.computeUnitLimit

def allAccounts : SchedulableUnit → Finset Pubkey
  | .bundle b => b.allAccounts
  | .transaction tx => tx.allAccounts

def priorityScore : SchedulableUnit → UInt64
  | .bundle b => b.priorityScore
  | .transaction tx => tx.priorityScore

/-- The text under which schedulers and workers name a unit: `bundle.id.to_string()`
or the signature. -/
def unitId : SchedulableUnit → String
  | .bundle b => toString b.id
  | .transaction tx => tx.signature

end SchedulableUnit

/-! ## Traits -/

structure WorkerAssignment where
  unitId : String
  workerId : ℕ
  isBundle : Bool
deriving DecidableEq

/-- The assignment of a unit to a worker. -/
def SchedulableUnit.assignment (unit : SchedulableUnit) (workerId : ℕ) : WorkerAssignment :=
  { unitId := unit.unitId, workerId, isBundle := unit.isAtomic }

structure BundleSubmission where
  bundle : Bundle
  score : UInt64
deriving DecidableEq

end Blunder
