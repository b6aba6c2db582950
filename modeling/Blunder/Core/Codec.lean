import Blunder.Core.Encoding
import Blunder.Foundation.PrefixCode

/-!
# Serialization

`serialize_message` and `deserialize_message` are those of the bincode crate. A `Codec` stands
for them, and `Codec.Sound` says what engine and scheduler rely on.

* `EngineMessage.instPrefixFree`, `SchedulerMessage.instPrefixFree`: in the default encoding no
  message is the beginning of another one.
* `Codec.sound_ofEncoding`: so there is a codec for it.
-/

namespace Blunder

open Foundation Foundation.Bincode

/-! ## The codec -/

/-- `serialize_message` and `deserialize_message` for a type of messages. -/
structure Codec (T : Type) where
  serialize : T → List UInt8
  deserialize : List UInt8 → Option T

/-- What is known of a codec for the messages of a 64 bit machine.
* `lossless`: a message is read as it was written.
* `truncated`: a message that is cut short is not read as any message.
* `size`: a message takes as many bytes as in the default encoding. -/
structure Codec.Sound {T : Type} [Encode T] [PrefixFree T] (codec : Codec T) : Prop where
  lossless : ∀ msg, Fits msg → codec.deserialize (codec.serialize msg) = some msg
  truncated : ∀ msg bytes, Fits msg → bytes <+: codec.serialize msg →
    bytes ≠ codec.serialize msg → codec.deserialize bytes = none
  size : ∀ msg, Fits msg → (codec.serialize msg).length = (serializeMessage msg).length

/-! ## The default encoding -/

section Words

variable (id itemId : String) (priority tip requestId timestampUs computeUnits : UInt64)
  (accounts : List AccountKey) (numTransactions workerCount workerId : ℕ) (success : Bool)
  (items : List ExecutionUnitData) (assignments : List WorkerAssignment) (a : WorkerAssignment)

theorem encode_transaction : encode (ExecutionUnitData.transaction id priority accounts) =
    variant 0 ++ encode id ++ encode priority ++ encode accounts := rfl

theorem encode_bundle : encode (ExecutionUnitData.bundle id tip accounts numTransactions) =
    variant 1 ++ encode id ++ encode tip ++ encode accounts ++ encode numTransactions := rfl

theorem encode_assignment : encode a = encode a.unitId ++ encode a.workerId ++ encode a.isBundle :=
  rfl

theorem encode_scheduleRequest :
    encode (EngineMessage.scheduleRequest requestId items workerCount) =
      variant 0 ++ encode requestId ++ encode items ++ encode workerCount := rfl

theorem encode_workerCompleted :
    encode (EngineMessage.workerCompleted workerId itemId success computeUnits) =
      variant 1 ++ encode workerId ++ encode itemId ++ encode success ++ encode computeUnits := rfl

theorem encode_heartbeat : encode (EngineMessage.heartbeat timestampUs) =
    variant 2 ++ encode timestampUs := rfl

theorem encode_scheduleResponse :
    encode (SchedulerMessage.scheduleResponse requestId assignments) =
      variant 0 ++ encode requestId ++ encode assignments := rfl

theorem encode_heartbeatAck : encode (SchedulerMessage.heartbeatAck timestampUs) =
    variant 1 ++ encode timestampUs := rfl

theorem encode_ready : encode SchedulerMessage.ready = variant 2 := rfl

end Words

/-- The sizes of an item are those of a 64 bit machine. -/
def ExecutionUnitData.FitsMachine : ExecutionUnitData → Prop
  | .transaction id _ accounts => Fits id ∧ Fits accounts
  | .bundle id _ accounts numTransactions => Fits id ∧ Fits accounts ∧ Fits numTransactions

/-- The number of the variant. -/
def ExecutionUnitData.variantIndex : ExecutionUnitData → ℕ
  | .transaction .. => 0
  | .bundle .. => 1

theorem ExecutionUnitData.variantIndex_eq_of_append {unit unit' : ExecutionUnitData}
    {rest rest' : List UInt8} (h : encode unit ++ rest = encode unit' ++ rest') :
    unit.variantIndex = unit'.variantIndex := by
  refine index_eq_of_append variantIndex ?_ ?_ h
  · intro unit
    cases unit <;> simp only [variantIndex] <;> decide
  · intro unit
    cases unit <;>
      simp only [variantIndex, encode_transaction, encode_bundle, List.append_assoc,
        List.prefix_append]

instance ExecutionUnitData.instPrefixFree : PrefixFree ExecutionUnitData where
  Fits := FitsMachine
  prefixCode := by
    intro a b rest rest' ha hb h
    cases a with
    | transaction id priority accounts =>
      cases b with
      | transaction id' priority' accounts' =>
        simp only [encode_transaction, List.append_assoc, List.append_cancel_left_eq] at h
        obtain ⟨rfl, hPriority⟩ := prefixCode _ _ _ _ ha.1 hb.1 h
        obtain ⟨rfl, hAccounts⟩ := prefixCode _ _ _ _ trivial trivial hPriority
        obtain ⟨rfl, hRest⟩ := prefixCode _ _ _ _ ha.2 hb.2 hAccounts
        exact ⟨rfl, hRest⟩
      | bundle => exact nomatch variantIndex_eq_of_append h
    | bundle id tip accounts numTransactions =>
      cases b with
      | transaction => exact nomatch variantIndex_eq_of_append h
      | bundle id' tip' accounts' numTransactions' =>
        simp only [encode_bundle, List.append_assoc, List.append_cancel_left_eq] at h
        obtain ⟨rfl, hTip⟩ := prefixCode _ _ _ _ ha.1 hb.1 h
        obtain ⟨rfl, hAccounts⟩ := prefixCode _ _ _ _ trivial trivial hTip
        obtain ⟨rfl, hNum⟩ := prefixCode _ _ _ _ ha.2.1 hb.2.1 hAccounts
        obtain ⟨rfl, hRest⟩ := prefixCode _ _ _ _ ha.2.2 hb.2.2 hNum
        exact ⟨rfl, hRest⟩

instance WorkerAssignment.instPrefixFree : PrefixFree WorkerAssignment where
  Fits a := Fits a.unitId ∧ Fits a.workerId
  prefixCode := by
    intro a b rest rest' ha hb h
    obtain ⟨unitId, workerId, isBundle⟩ := a
    obtain ⟨unitId', workerId', isBundle'⟩ := b
    simp only [encode_assignment, List.append_assoc] at h
    obtain ⟨rfl, hWorker⟩ := prefixCode _ _ _ _ ha.1 hb.1 h
    obtain ⟨rfl, hKind⟩ := prefixCode _ _ _ _ ha.2 hb.2 hWorker
    obtain ⟨rfl, hRest⟩ := prefixCode _ _ _ _ trivial trivial hKind
    exact ⟨rfl, hRest⟩

/-- The number of the variant. -/
def EngineMessage.variantIndex : EngineMessage → ℕ
  | .scheduleRequest .. => 0
  | .workerCompleted .. => 1
  | .heartbeat .. => 2

theorem EngineMessage.variantIndex_eq_of_append {msg msg' : EngineMessage}
    {rest rest' : List UInt8} (h : encode msg ++ rest = encode msg' ++ rest') :
    msg.variantIndex = msg'.variantIndex := by
  refine index_eq_of_append variantIndex ?_ ?_ h
  · intro msg
    cases msg <;> simp only [variantIndex] <;> decide
  · intro msg
    cases msg <;>
      simp only [variantIndex, encode_scheduleRequest, encode_workerCompleted, encode_heartbeat,
        List.append_assoc, List.prefix_append]

/-- The sizes of a message are those of a 64 bit machine. -/
def EngineMessage.FitsMachine : EngineMessage → Prop
  | .scheduleRequest _ items workerCount => Fits items ∧ Fits workerCount
  | .workerCompleted workerId itemId _ _ => Fits workerId ∧ Fits itemId
  | .heartbeat _ => True

instance EngineMessage.instPrefixFree : PrefixFree EngineMessage where
  Fits := FitsMachine
  prefixCode := by
    intro a b rest rest' ha hb h
    cases a with
    | scheduleRequest requestId items workerCount =>
      cases b with
      | scheduleRequest requestId' items' workerCount' =>
        simp only [encode_scheduleRequest, List.append_assoc, List.append_cancel_left_eq] at h
        obtain ⟨rfl, hItems⟩ := prefixCode _ _ _ _ trivial trivial h
        obtain ⟨rfl, hCount⟩ := prefixCode _ _ _ _ ha.1 hb.1 hItems
        obtain ⟨rfl, hRest⟩ := prefixCode _ _ _ _ ha.2 hb.2 hCount
        exact ⟨rfl, hRest⟩
      | _ => exact nomatch variantIndex_eq_of_append h
    | workerCompleted workerId itemId success computeUnits =>
      cases b with
      | workerCompleted workerId' itemId' success' computeUnits' =>
        simp only [encode_workerCompleted, List.append_assoc, List.append_cancel_left_eq] at h
        obtain ⟨rfl, hItem⟩ := prefixCode _ _ _ _ ha.1 hb.1 h
        obtain ⟨rfl, hSuccess⟩ := prefixCode _ _ _ _ ha.2 hb.2 hItem
        obtain ⟨rfl, hUnits⟩ := prefixCode _ _ _ _ trivial trivial hSuccess
        obtain ⟨rfl, hRest⟩ := prefixCode _ _ _ _ trivial trivial hUnits
        exact ⟨rfl, hRest⟩
      | _ => exact nomatch variantIndex_eq_of_append h
    | heartbeat timestampUs =>
      cases b with
      | heartbeat timestampUs' =>
        simp only [encode_heartbeat, List.append_assoc, List.append_cancel_left_eq] at h
        obtain ⟨rfl, hRest⟩ := prefixCode _ _ _ _ trivial trivial h
        exact ⟨rfl, hRest⟩
      | _ => exact nomatch variantIndex_eq_of_append h

/-- The number of the variant. -/
def SchedulerMessage.variantIndex : SchedulerMessage → ℕ
  | .scheduleResponse .. => 0
  | .heartbeatAck .. => 1
  | .ready => 2

theorem SchedulerMessage.variantIndex_eq_of_append {msg msg' : SchedulerMessage}
    {rest rest' : List UInt8} (h : encode msg ++ rest = encode msg' ++ rest') :
    msg.variantIndex = msg'.variantIndex := by
  refine index_eq_of_append variantIndex ?_ ?_ h
  · intro msg
    cases msg <;> simp only [variantIndex] <;> decide
  · intro msg
    cases msg <;>
      simp only [variantIndex, encode_scheduleResponse, encode_heartbeatAck, encode_ready,
        List.append_assoc, List.prefix_append, List.prefix_refl]

/-- The sizes of a message are those of a 64 bit machine. -/
def SchedulerMessage.FitsMachine : SchedulerMessage → Prop
  | .scheduleResponse _ assignments => Fits assignments
  | .heartbeatAck _ => True
  | .ready => True

instance SchedulerMessage.instPrefixFree : PrefixFree SchedulerMessage where
  Fits := FitsMachine
  prefixCode := by
    intro a b rest rest' ha hb h
    cases a with
    | scheduleResponse requestId assignments =>
      cases b with
      | scheduleResponse requestId' assignments' =>
        simp only [encode_scheduleResponse, List.append_assoc, List.append_cancel_left_eq] at h
        obtain ⟨rfl, hAssignments⟩ := prefixCode _ _ _ _ trivial trivial h
        obtain ⟨rfl, hRest⟩ := prefixCode _ _ _ _ ha hb hAssignments
        exact ⟨rfl, hRest⟩
      | _ => exact nomatch variantIndex_eq_of_append h
    | heartbeatAck timestampUs =>
      cases b with
      | heartbeatAck timestampUs' =>
        simp only [encode_heartbeatAck, List.append_assoc, List.append_cancel_left_eq] at h
        obtain ⟨rfl, hRest⟩ := prefixCode _ _ _ _ trivial trivial h
        exact ⟨rfl, hRest⟩
      | _ => exact nomatch variantIndex_eq_of_append h
    | ready =>
      cases b with
      | ready => exact ⟨rfl, List.append_cancel_left h⟩
      | _ => exact nomatch variantIndex_eq_of_append h

/-! ## A sound codec -/

/-- A message is written in the default encoding, and read as the one at the front of the bytes. -/
noncomputable def Codec.ofEncoding (T : Type) [Encode T] [PrefixFree T] : Codec T where
  serialize := serializeMessage
  deserialize := PrefixCode.decode encode Fits

theorem Codec.sound_ofEncoding (T : Type) [Encode T] [PrefixFree T] : (ofEncoding T).Sound where
  lossless _ hFits := prefixCode.decode_enc hFits
  truncated _ _ hFits hPrefix hCut := prefixCode.decode_truncated hFits hPrefix hCut
  size _ _ := rfl

end Blunder
