import Blunder.Core.Protocol
import Blunder.Foundation.Bincode

/-!
# The bytes of the messages

`serialize_message` is `bincode::serialize`. The messages derive their encoding, so it
follows the order of the variants and of the fields.
-/

namespace Blunder

open Foundation.Bincode

instance ExecutionUnitData.instEncode : Encode ExecutionUnitData where
  encode
    | .transaction id priority accounts =>
      variant 0 ++ encode id ++ encode priority ++ encode accounts
    | .bundle id tip accounts numTransactions =>
      variant 1 ++ encode id ++ encode tip ++ encode accounts ++ encode numTransactions

instance WorkerAssignment.instEncode : Encode WorkerAssignment where
  encode a := encode a.unitId ++ encode a.workerId ++ encode a.isBundle

instance EngineMessage.instEncode : Encode EngineMessage where
  encode
    | .scheduleRequest requestId items workerCount =>
      variant 0 ++ encode requestId ++ encode items ++ encode workerCount
    | .workerCompleted workerId itemId success computeUnits =>
      variant 1 ++ encode workerId ++ encode itemId ++ encode success ++ encode computeUnits
    | .heartbeat timestampUs => variant 2 ++ encode timestampUs

instance SchedulerMessage.instEncode : Encode SchedulerMessage where
  encode
    | .scheduleResponse requestId assignments =>
      variant 0 ++ encode requestId ++ encode assignments
    | .heartbeatAck timestampUs => variant 1 ++ encode timestampUs
    | .ready => variant 2

def serializeMessage {T : Type} [Encode T] (msg : T) : List UInt8 := encode msg

/-! ## Sizes -/

theorem length_encode_accounts (accounts : List AccountKey) :
    (encode accounts).length = 8 + 32 * accounts.length :=
  length_encode_list_of_forall fun account _ => length_encode_array account

theorem WorkerAssignment.length_encode (a : WorkerAssignment) :
    (encode a).length = 17 + a.unitId.utf8ByteSize := by
  change (encode a.unitId ++ encode a.workerId ++ encode a.isBundle).length = _
  simp only [List.length_append, length_encode_string, length_encode_usize, length_encode_bool]
  omega

theorem ExecutionUnitData.length_encode (item : ExecutionUnitData) :
    (encode item).length =
      28 + item.id.utf8ByteSize + 32 * item.accounts.length + if item.isBundle then 8 else 0 := by
  cases item with
  | transaction id priority accounts =>
    change (variant 0 ++ encode id ++ encode priority ++ encode accounts).length = _
    simp only [List.length_append, length_variant, length_encode_string, length_encode_uint64,
      length_encode_accounts, ExecutionUnitData.id, ExecutionUnitData.accounts,
      ExecutionUnitData.isBundle, Bool.false_eq_true, if_false]
    omega
  | bundle id tip accounts numTransactions =>
    change (variant 1 ++ encode id ++ encode tip ++ encode accounts ++
      encode numTransactions).length = _
    simp only [List.length_append, length_variant, length_encode_string, length_encode_uint64,
      length_encode_usize, length_encode_accounts, ExecutionUnitData.id,
      ExecutionUnitData.accounts, ExecutionUnitData.isBundle, if_true]
    omega

theorem length_scheduleRequest (requestId : UInt64) (items : List ExecutionUnitData)
    (workerCount : ℕ) :
    (serializeMessage (EngineMessage.scheduleRequest requestId items workerCount)).length =
      20 + (encode items).length := by
  change (variant 0 ++ encode requestId ++ encode items ++ encode workerCount).length = _
  simp only [List.length_append, length_variant, length_encode_uint64, length_encode_usize]
  omega

theorem length_scheduleResponse (requestId : UInt64) (assignments : List WorkerAssignment) :
    (serializeMessage (SchedulerMessage.scheduleResponse requestId assignments)).length =
      12 + (encode assignments).length := by
  change (variant 0 ++ encode requestId ++ encode assignments).length = _
  simp only [List.length_append, length_variant, length_encode_uint64]

theorem length_heartbeatAck (timestampUs : UInt64) :
    (serializeMessage (SchedulerMessage.heartbeatAck timestampUs)).length = 12 := by
  change (variant 1 ++ encode timestampUs).length = _
  simp only [List.length_append, length_variant, length_encode_uint64]

theorem length_ready : (serializeMessage SchedulerMessage.ready).length = 4 := length_variant 2

end Blunder
