import Blunder.Core.Codec
import Blunder.SchedulerExternal.ReadLimit

/-!
# A client and its server, byte by byte

The session of `SchedulerExternal.Session` as it is on the connection. Every message is
serialized and gets a stream of its own; a reader takes in at most one MiB and decodes
what it has. A stream may be read at any time and any number of times, and may end
early: of what was written any beginning may be all that arrives. Reports of completed
units share the connection with the requests. The codecs of the messages are a parameter.

* `ByteSession.reachable_faithful`: seen as messages, a run is a run of the session of messages,
  and every answer is read as the message that was sent.
* `ByteSession.reachable_answered`: a request over the limit is never answered, and no call gets
  what is not the server's schedule for it.
-/

namespace Blunder

open Foundation.Bincode Foundation.Transition ExternalSchedulerClient

/-- The codecs of both sides. -/
structure Wire where
  engine : Codec EngineMessage
  scheduler : Codec SchedulerMessage

structure Wire.Sound (wire : Wire) : Prop where
  engine : wire.engine.Sound
  scheduler : wire.scheduler.Sound

/-! ## Streams -/

/-- `read_to_end`. -/
def readToEnd (bytes : List UInt8) : Option (List UInt8) :=
  if bytes.length ≤ readLimit then some bytes else none

/-- What the client makes of a stream. -/
def readStream (wire : Wire) (bytes : List UInt8) : IncomingStream :=
  match readToEnd bytes with
  | none => .unreadable
  | some bytes =>
    match wire.scheduler.deserialize bytes with
    | none => .undecodable
    | some message => .message message

/-- What the server makes of a stream, with the stream of its answer. -/
def handleStream (wire : Wire) (scheduler : RoundRobinScheduler) (bytes : List UInt8) :
    RoundRobinScheduler × Option (List UInt8) :=
  match readToEnd bytes with
  | none => (scheduler, none)
  | some bytes =>
    match wire.engine.deserialize bytes with
    | none => (scheduler, none)
    | some message =>
      let (scheduler, response) := handleConnection scheduler message
      (scheduler, response.map wire.scheduler.serialize)

section Streams

variable {wire : Wire} {count : ℕ}

theorem readToEnd_eq_some {bytes : List UInt8} (hRead : bytes.length ≤ readLimit) :
    readToEnd bytes = some bytes :=
  if_pos hRead

/-- A part of a message is not read as any message. -/
theorem Codec.Sound.deserialize_truncated {T : Type} [Encode T] [PrefixFree T] {codec : Codec T}
    (hCodec : codec.Sound) {msg : T} (hFits : Fits msg)
    (hCount : count < (codec.serialize msg).length) :
    codec.deserialize ((codec.serialize msg).take count) = none := by
  refine hCodec.truncated msg _ hFits (List.take_prefix count _) ?_
  intro hAll
  have hLength := congrArg List.length hAll
  rw [List.length_take] at hLength
  omega

theorem readStream_serialize (hWire : wire.Sound) {message : SchedulerMessage}
    (hFits : Fits message) (hRead : (wire.scheduler.serialize message).length ≤ readLimit) :
    readStream wire (wire.scheduler.serialize message) = .message message := by
  rw [readStream, readToEnd_eq_some hRead]
  dsimp only
  rw [hWire.scheduler.lossless message hFits]

theorem readStream_truncated (hWire : wire.Sound) {message : SchedulerMessage}
    (hFits : Fits message) (hRead : (wire.scheduler.serialize message).length ≤ readLimit)
    (hCount : count < (wire.scheduler.serialize message).length) :
    readStream wire ((wire.scheduler.serialize message).take count) = .undecodable := by
  rw [readStream, readToEnd_eq_some ((List.length_take_le' _ _).trans hRead)]
  dsimp only
  rw [hWire.scheduler.deserialize_truncated hFits hCount]

/-- A stream that ends early brings no other message. -/
theorem readStream_cut (hWire : wire.Sound) {message : SchedulerMessage} (hFits : Fits message)
    (hRead : (wire.scheduler.serialize message).length ≤ readLimit) (count : ℕ) :
    readStream wire ((wire.scheduler.serialize message).take count) = .message message ∨
      readStream wire ((wire.scheduler.serialize message).take count) = .undecodable := by
  rcases Nat.lt_or_ge count (wire.scheduler.serialize message).length with hLt | hGe
  · exact Or.inr (readStream_truncated hWire hFits hRead hLt)
  · rw [List.take_of_length_le hGe]
    exact Or.inl (readStream_serialize hWire hFits hRead)

theorem handleStream_serialize (hWire : wire.Sound) {message : EngineMessage}
    (hFits : Fits message) (hRead : (wire.engine.serialize message).length ≤ readLimit)
    (scheduler : RoundRobinScheduler) :
    handleStream wire scheduler (wire.engine.serialize message) =
      ((handleConnection scheduler message).1,
        (handleConnection scheduler message).2.map wire.scheduler.serialize) := by
  rw [handleStream, readToEnd_eq_some hRead]
  dsimp only
  rw [hWire.engine.lossless message hFits]

theorem handleStream_truncated (hWire : wire.Sound) {message : EngineMessage}
    (hFits : Fits message) (hCount : count < (wire.engine.serialize message).length)
    (scheduler : RoundRobinScheduler) :
    handleStream wire scheduler ((wire.engine.serialize message).take count) =
      (scheduler, none) := by
  unfold handleStream readToEnd
  by_cases hRead : ((wire.engine.serialize message).take count).length ≤ readLimit
  · rw [if_pos hRead]
    dsimp only
    rw [hWire.engine.deserialize_truncated hFits hCount]
  · rw [if_neg hRead]

/-- The server ignores a stream, or has read the whole message within its limit. -/
theorem handleStream_cut (hWire : wire.Sound) {message : EngineMessage} (hFits : Fits message)
    (scheduler : RoundRobinScheduler) (count : ℕ) :
    handleStream wire scheduler ((wire.engine.serialize message).take count) =
        (scheduler, none) ∨
      (wire.engine.serialize message).length ≤ readLimit ∧
        handleStream wire scheduler ((wire.engine.serialize message).take count) =
          ((handleConnection scheduler message).1,
            (handleConnection scheduler message).2.map wire.scheduler.serialize) := by
  rcases Nat.lt_or_ge count (wire.engine.serialize message).length with hLt | hGe
  · exact Or.inl (handleStream_truncated hWire hFits hLt scheduler)
  · rw [List.take_of_length_le hGe]
    by_cases hRead : (wire.engine.serialize message).length ≤ readLimit
    · exact Or.inr ⟨hRead, handleStream_serialize hWire hFits hRead scheduler⟩
    · left
      rw [handleStream, readToEnd, if_neg hRead]

end Streams

/-! ## What the server sends -/

/-- The assignments of items that a machine can hold are such assignments. -/
theorem RoundRobinScheduler.fits_schedule (s : RoundRobinScheduler)
    {items : List ExecutionUnitData} {workerCount : ℕ} (hItems : Fits items)
    (hCount : Fits workerCount) : Fits (s.schedule items workerCount).2 := by
  rcases Nat.eq_zero_or_pos workerCount with rfl | hPos
  · refine ⟨(by decide : 0 < UInt64.size), ?_⟩
    intro a ha
    cases ha
  · have hAll := s.schedule_forall₂ items hPos
    refine ⟨?_, ?_⟩
    · rw [← hAll.length_eq]
      exact hItems.1
    · intro a ha
      obtain ⟨i, hi, rfl⟩ := List.mem_iff_getElem.mp ha
      have hi' : i < items.length := by
        rw [hAll.length_eq]
        exact hi
      obtain ⟨w, hw, hAssigned⟩ := hAll.get hi' hi
      have hItem := hItems.2 _ (List.getElem_mem hi')
      rw [List.get_eq_getElem, List.get_eq_getElem] at hAssigned
      rw [hAssigned]
      refine ⟨?_, lt_trans hw hCount⟩
      change Fits (items[i]).id
      cases hCase : items[i] with
      | transaction id priority accounts =>
        rw [hCase] at hItem
        exact hItem.1
      | bundle id tip accounts numTransactions =>
        rw [hCase] at hItem
        exact hItem.1

theorem fits_handleConnection (scheduler : RoundRobinScheduler) {message : EngineMessage}
    {response : SchedulerMessage} (hFits : Fits message)
    (hAnswer : (handleConnection scheduler message).2 = some response) : Fits response := by
  cases message with
  | scheduleRequest requestId items workerCount =>
    cases hAnswer
    exact scheduler.fits_schedule hFits.1 hFits.2
  | workerCompleted workerId itemId success computeUnits => cases hAnswer
  | heartbeat timestampUs =>
    cases hAnswer
    trivial

/-! ## The session -/

/-- What `schedule` is called with, of the sizes of a 64 bit machine. -/
structure ScheduleArgs where
  items : List ExecutionUnitData
  workerCount : ℕ
  fits : Fits items ∧ Fits workerCount

/-- What `report_completion` is called with, of the sizes of a 64 bit machine. -/
structure CompletionReport where
  workerId : ℕ
  itemId : String
  success : Bool
  computeUnits : UInt64
  fits : Fits workerId ∧ Fits itemId

def CompletionReport.message (report : CompletionReport) : EngineMessage :=
  .workerCompleted report.workerId report.itemId report.success report.computeUnits

/-- The point that a call of `report_completion` has reached. -/
inductive ReportPhase
  | locking
  | sending
  | returned
deriving DecidableEq

structure ReportCall where
  report : CompletionReport
  phase : ReportPhase

/-- The client has the connection for its requests, for its reports (`reportGuard`, the
index of the call that holds it) and for its receive loop. -/
structure ByteSession where
  client : Client
  reports : List ReportCall
  reportGuard : Option ℕ
  reported : List EngineMessage
  scheduler : RoundRobinScheduler
  responses : List (List UInt8)

/-- The client's next step locks the connection. -/
def ExternalSchedulerClient.Client.locksConnection (s : Client) : Client.Act → Bool
  | .call c .proceed => (s.calls[c]?).any fun call => decide (call.phase = .registered)
  | .lockConnection => true
  | _ => false

namespace ByteSession

/-- A connection without requests. -/
def new : ByteSession := ⟨Client.new true, [], none, [], RoundRobinScheduler.new, []⟩

/-- The streams of the client. -/
def requests (wire : Wire) (s : ByteSession) : List (List UInt8) :=
  (s.client.sent ++ s.reported).map wire.engine.serialize

/-- `receive` and `serve` take the stream with an index and the number of bytes of it
that arrive. -/
inductive Act
  | schedule (args : ScheduleArgs)
  | call (c : ℕ) (act : Client.CallAct)
  | lockConnection
  | receive (i count : ℕ)
  | handle
  | disconnect
  | reset
  | serve (i count : ℕ)
  | report (report : CompletionReport)
  | reportStep (r : ℕ) (written : Bool)

def clientStep (s : ByteSession) (act : Client.Act) : Option ByteSession :=
  if s.reportGuard ≠ none ∧ s.client.locksConnection act then none
  else (s.client.step act).map fun client => { s with client }

/-- Opening the stream and writing to it may fail, and the call returns `Ok` all the same. -/
def stepReport (s : ByteSession) (r : ℕ) (call : ReportCall) (written : Bool) :
    Option ByteSession :=
  match call.phase with
  | .locking =>
    if s.client.connectionGuard ≠ none ∨ s.reportGuard ≠ none then none
    else if s.client.connected then
      some { s with
        reports := s.reports.set r { call with phase := .sending }
        reportGuard := some r }
    else some { s with reports := s.reports.set r { call with phase := .returned } }
  | .sending =>
    some { s with
      reports := s.reports.set r { call with phase := .returned }
      reportGuard := none
      reported := s.reported ++ if written then [call.report.message] else [] }
  | .returned => none

def step (wire : Wire) (s : ByteSession) : Act → Option ByteSession
  | .schedule args => s.clientStep (.start args.items args.workerCount)
  | .call c act => s.clientStep (.call c act)
  | .lockConnection => s.clientStep .lockConnection
  | .receive i count =>
    (s.responses[i]?).bind fun bytes =>
      s.clientStep (.accept (readStream wire (bytes.take count)))
  | .handle => s.clientStep .handle
  | .disconnect => s.clientStep (.accept .closed)
  | .reset => s.clientStep (.accept .unreadable)
  | .serve i count =>
    ((s.requests wire)[i]?).map fun bytes =>
      let (scheduler, response) := handleStream wire s.scheduler (bytes.take count)
      { s with scheduler, responses := s.responses ++ response.toList }
  | .report report => some { s with reports := s.reports ++ [⟨report, .locking⟩] }
  | .reportStep r written => (s.reports[r]?).bind fun call => s.stepReport r call written

/-- The session as messages. -/
def session (wire : Wire) (s : ByteSession) : SchedulerSession where
  client := s.client
  scheduler := s.scheduler
  responses := s.responses.filterMap wire.scheduler.deserialize

/-! ## What the streams hold -/

/-- The answer to a request that was within the limit. -/
def Answers (wire : Wire) (calls : List Call) : SchedulerMessage → Prop
  | .scheduleResponse requestId _ =>
    ∃ call ∈ calls, call.requestId = requestId ∧
      (wire.engine.serialize call.request).length ≤ readLimit
  | _ => True

structure Inv (wire : Wire) (s : ByteSession) : Prop where
  session : (s.session wire).Inv
  calls : ∀ call ∈ s.client.calls, Fits call.request
  reported : ∀ message ∈ s.reported, ∃ report : CompletionReport, message = report.message
  responses : ∀ bytes ∈ s.responses, ∃ message : SchedulerMessage,
    bytes = wire.scheduler.serialize message ∧ Fits message ∧
      (wire.scheduler.serialize message).length ≤ readLimit ∧ Answers wire s.client.calls message

theorem new_inv (wire : Wire) : Inv wire new where
  session := SchedulerSession.new_inv
  calls call h := by cases h
  reported message h := by cases h
  responses bytes h := by cases h

/-- What a step does, seen from its parts. -/
inductive Step (wire : Wire) (s : ByteSession) : ByteSession → Prop
  | client {act client} (hClient : s.client.step act = some client)
      (hStart : ∀ items workerCount, act = .start items workerCount →
        Fits items ∧ Fits workerCount)
      (hAccept : ∀ message, act = .accept (.message message) →
        ∃ bytes ∈ s.responses, ∃ count, readStream wire (bytes.take count) = .message message) :
    Step wire s { s with client }
  | serve {bytes} (count : ℕ) (hBytes : bytes ∈ s.requests wire) :
    Step wire s { s with
      scheduler := (handleStream wire s.scheduler (bytes.take count)).1
      responses := s.responses ++ (handleStream wire s.scheduler (bytes.take count)).2.toList }
  | report {reports reportGuard reported}
      (hReported : ∀ message ∈ reported, message ∈ s.reported ∨
        ∃ report : CompletionReport, message = report.message) :
    Step wire s { s with reports, reportGuard, reported }

section Steps

variable {wire : Wire} {s s' : ByteSession} {act : Act}

theorem clientStep_eq_some {act : Client.Act} (h : s.clientStep act = some s') :
    ∃ client, s.client.step act = some client ∧ s' = { s with client } := by
  rw [clientStep] at h
  split at h
  · cases h
  · obtain ⟨client, hClient, rfl⟩ := Option.map_eq_some_iff.mp h
    exact ⟨client, hClient, rfl⟩

theorem stepReport_cases {r : ℕ} {call : ReportCall} {written : Bool}
    (h : s.stepReport r call written = some s') : Step wire s s' := by
  have hSame : ∀ message ∈ s.reported, message ∈ s.reported ∨
      ∃ report : CompletionReport, message = report.message := fun message hMem => Or.inl hMem
  rw [stepReport] at h
  split at h
  · split at h
    · cases h
    · split at h
      · cases h
        exact Step.report hSame
      · cases h
        exact Step.report hSame
  · cases h
    apply Step.report
    intro message hMem
    rcases List.mem_append.mp hMem with hOld | hNew
    · exact Or.inl hOld
    · cases written with
      | false => cases hNew
      | true => exact Or.inr ⟨call.report, List.mem_singleton.mp hNew⟩
  · cases h

theorem step_cases (h : s.step wire act = some s') : Step wire s s' := by
  cases act with
  | schedule args =>
    obtain ⟨client, hClient, rfl⟩ := clientStep_eq_some h
    refine Step.client hClient ?_ (by simp)
    intro items workerCount hAct
    cases hAct
    exact args.fits
  | call c act =>
    obtain ⟨client, hClient, rfl⟩ := clientStep_eq_some h
    exact Step.client hClient (by simp) (by simp)
  | lockConnection =>
    obtain ⟨client, hClient, rfl⟩ := clientStep_eq_some h
    exact Step.client hClient (by simp) (by simp)
  | receive i count =>
    obtain ⟨bytes, hBytes, hStep⟩ := Option.bind_eq_some_iff.mp h
    obtain ⟨client, hClient, rfl⟩ := clientStep_eq_some hStep
    refine Step.client hClient (by simp) ?_
    intro message hAct
    exact ⟨bytes, List.mem_of_getElem? hBytes, count, Client.Act.accept.inj hAct⟩
  | handle =>
    obtain ⟨client, hClient, rfl⟩ := clientStep_eq_some h
    exact Step.client hClient (by simp) (by simp)
  | disconnect =>
    obtain ⟨client, hClient, rfl⟩ := clientStep_eq_some h
    exact Step.client hClient (by simp) (by simp)
  | reset =>
    obtain ⟨client, hClient, rfl⟩ := clientStep_eq_some h
    exact Step.client hClient (by simp) (by simp)
  | serve i count =>
    obtain ⟨bytes, hBytes, rfl⟩ := Option.map_eq_some_iff.mp h
    exact Step.serve count (List.mem_of_getElem? hBytes)
  | report report =>
    cases h
    exact Step.report fun message hMem => Or.inl hMem
  | reportStep r written =>
    obtain ⟨call, -, hStep⟩ := Option.bind_eq_some_iff.mp h
    exact stepReport_cases hStep

/-- A stream of the client holds a request or a report. -/
theorem Inv.fits_requests (hs : Inv wire s) {message : EngineMessage}
    (hMem : message ∈ s.client.sent ++ s.reported) : Fits message := by
  rcases List.mem_append.mp hMem with hSent | hReported
  · obtain ⟨call, hCall, rfl⟩ := hs.session.sent message hSent
    exact hs.calls call hCall
  · obtain ⟨report, rfl⟩ := hs.reported message hReported
    exact report.fits

/-- The messages that the answers stand for. -/
theorem Inv.mem_responses (hs : Inv wire s) (hWire : wire.Sound) {bytes : List UInt8}
    (hMem : bytes ∈ s.responses) :
    ∃ message ∈ (s.session wire).responses, bytes = wire.scheduler.serialize message ∧
      Fits message ∧ (wire.scheduler.serialize message).length ≤ readLimit ∧
        Answers wire s.client.calls message := by
  obtain ⟨message, rfl, hFits, hRead, hAnswers⟩ := hs.responses bytes hMem
  refine ⟨message, ?_, rfl, hFits, hRead, hAnswers⟩
  exact List.mem_filterMap.mpr ⟨_, hMem, hWire.scheduler.lossless message hFits⟩

theorem filterMap_serialize (hWire : wire.Sound) {response : Option SchedulerMessage}
    (hFits : ∀ message, response = some message → Fits message) :
    (response.map wire.scheduler.serialize).toList.filterMap wire.scheduler.deserialize =
      response.toList := by
  cases response with
  | none => rfl
  | some message =>
    change [wire.scheduler.serialize message].filterMap wire.scheduler.deserialize = [message]
    rw [List.filterMap_cons, hWire.scheduler.lossless message (hFits message rfl)]
    rfl

/-- The server handles a whole message as in the session of messages. -/
theorem session_serve (hWire : wire.Sound) {message : EngineMessage} (hFits : Fits message) :
    session wire { s with
      scheduler := (handleConnection s.scheduler message).1
      responses := s.responses ++
        ((handleConnection s.scheduler message).2.map wire.scheduler.serialize).toList } =
    { s.session wire with
      scheduler := (handleConnection s.scheduler message).1
      responses := (s.session wire).responses ++
        (handleConnection s.scheduler message).2.toList } := by
  have hAnswer := filterMap_serialize hWire
    fun response hResponse => fits_handleConnection s.scheduler hFits hResponse
  rw [session, List.filterMap_append, hAnswer]
  rfl

/-- A step is one of the session of messages, or changes nothing there. -/
theorem step_session (hWire : wire.Sound) (hs : Inv wire s) (h : s.step wire act = some s') :
    Reachable SchedulerSession.step (s.session wire) (s'.session wire) := by
  cases step_cases h with
  | @client clientAct client hClient hStart hAccept =>
    have hCarries : (s.session wire).Carries clientAct = true := by
      cases clientAct with
      | accept stream =>
        cases stream with
        | message message =>
          obtain ⟨bytes, hBytes, count, hRead⟩ := hAccept message rfl
          obtain ⟨sent, hSent, rfl, hFits, hLimit, -⟩ := hs.mem_responses hWire hBytes
          rcases readStream_cut hWire hFits hLimit count with hAll | hCut
          · rw [hAll] at hRead
            cases hRead
            exact decide_eq_true hSent
          · rw [hCut] at hRead
            cases hRead
        | _ => rfl
      | _ => rfl
    apply Reachable.single (a := SchedulerSession.Act.client clientAct)
    rw [SchedulerSession.step, if_pos hCarries]
    change (s.client.step clientAct).map _ = _
    rw [hClient]
    rfl
  | @serve bytes count hBytes =>
    obtain ⟨message, hMem, rfl⟩ := List.mem_map.mp hBytes
    have hFits := hs.fits_requests hMem
    rcases handleStream_cut hWire hFits s.scheduler count with hIgnored | ⟨hRead, hHandled⟩
    · rw [hIgnored]
      have hSame : s.session wire = session wire { s with
          scheduler := s.scheduler
          responses := s.responses ++ (none : Option (List UInt8)).toList } := by
        rw [Option.toList_none, List.append_nil]
      rw [← hSame]
      exact Reachable.refl _
    · rw [hHandled]
      dsimp only
      rw [session_serve hWire hFits]
      rcases List.mem_append.mp hMem with hSent | hReported
      · apply Reachable.single (a := SchedulerSession.Act.serve message)
        exact if_pos hSent
      · obtain ⟨report, rfl⟩ := hs.reported message hReported
        have hSame : s.session wire = { s.session wire with
            scheduler := s.scheduler
            responses := (s.session wire).responses ++
              (none : Option SchedulerMessage).toList } := by
          rw [Option.toList_none, List.append_nil]
          rfl
        change Reachable _ (s.session wire) { s.session wire with
            scheduler := s.scheduler
            responses := (s.session wire).responses ++ (none : Option SchedulerMessage).toList }
        rw [← hSame]
        exact Reachable.refl _
  | report hReported => exact Reachable.refl _

/-- The calls of a client are those that were started. -/
theorem fits_client_step {clientAct : Client.Act} {client : Client}
    (hCalls : ∀ call ∈ s.client.calls, Fits call.request)
    (hStart : ∀ items workerCount, clientAct = .start items workerCount →
      Fits items ∧ Fits workerCount)
    (hClient : s.client.step clientAct = some client) :
    ∀ call ∈ client.calls, Fits call.request := by
  intro call hCall
  cases Client.step_cases hClient with
  | start =>
    rcases List.mem_append.mp hCall with hOld | hNew
    · exact hCalls call hOld
    · obtain rfl := List.mem_singleton.mp hNew
      exact hStart _ _ rfl
  | @call c old act phase t hOld hStep =>
    rw [Client.setPhase, hStep.calls_eq] at hCall
    rcases List.mem_or_eq_of_mem_set hCall with hOther | rfl
    · exact hCalls call hOther
    · exact hCalls old (List.mem_of_getElem? hOld)
  | listen => exact hCalls call hCall
  | @deliver requestId assignments c hLoop hPending =>
    obtain ⟨i, hi⟩ := List.mem_iff_getElem?.mp hCall
    rw [List.getElem?_modify] at hi
    obtain ⟨old, hOld, rfl⟩ := Option.map_eq_some_iff.mp hi
    have hFits := hCalls old (List.mem_of_getElem? hOld)
    split
    · rwa [(Call.extends_deliver assignments old).request]
    · exact hFits

theorem Answers.mono {calls calls' : List Call}
    (hCalls : ∀ call ∈ calls, ∃ call' ∈ calls', call.Extends call') {message : SchedulerMessage}
    (h : Answers wire calls message) : Answers wire calls' message := by
  cases message with
  | scheduleResponse requestId assignments =>
    obtain ⟨call, hCall, hId, hRead⟩ := h
    obtain ⟨call', hCall', hExtends⟩ := hCalls call hCall
    refine ⟨call', hCall', hExtends.requestId.trans hId, ?_⟩
    rwa [hExtends.request]
  | heartbeatAck timestampUs => trivial
  | ready => trivial

/-- The answer to a request that was within the limit says so. -/
theorem answers_handleConnection {message : EngineMessage} {response : SchedulerMessage}
    (hs : Inv wire s) (hMem : message ∈ s.client.sent ++ s.reported)
    (hRead : (wire.engine.serialize message).length ≤ readLimit)
    (hAnswer : (handleConnection s.scheduler message).2 = some response) :
    Answers wire s.client.calls response := by
  rcases List.mem_append.mp hMem with hSent | hReported
  · obtain ⟨call, hCall, rfl⟩ := hs.session.sent message hSent
    cases hAnswer
    exact ⟨call, hCall, rfl, hRead⟩
  · obtain ⟨report, rfl⟩ := hs.reported message hReported
    cases hAnswer

/-- The answer to a message within the limit is within it, too. -/
theorem length_response_le_readLimit (hWire : wire.Sound) (scheduler : RoundRobinScheduler)
    {message : EngineMessage} {response : SchedulerMessage} (hFits : Fits message)
    (hRead : (wire.engine.serialize message).length ≤ readLimit)
    (hAnswer : (handleConnection scheduler message).2 = some response) :
    (wire.scheduler.serialize response).length ≤ readLimit := by
  rw [hWire.engine.size message hFits] at hRead
  rw [hWire.scheduler.size response (fits_handleConnection scheduler hFits hAnswer)]
  exact handleConnection_within_readLimit scheduler hRead hAnswer

theorem step_inv (hWire : wire.Sound) (hs : Inv wire s) (h : s.step wire act = some s') :
    Inv wire s' := by
  have hSession : (s'.session wire).Inv := (step_session hWire hs h).invariant
    (fun _ _ _ hu hStep => SchedulerSession.step_inv hu hStep) hs.session
  cases step_cases h with
  | client hClient hStart hAccept =>
    refine ⟨hSession, fits_client_step hs.calls hStart hClient, hs.reported, ?_⟩
    intro bytes hBytes
    obtain ⟨message, hMessage, hFits, hRead, hAnswers⟩ := hs.responses bytes hBytes
    exact ⟨message, hMessage, hFits, hRead,
      hAnswers.mono fun call hCall => (Client.step_cases hClient).extends_mem hCall⟩
  | @serve bytes count hBytes =>
    refine ⟨hSession, hs.calls, hs.reported, ?_⟩
    obtain ⟨message, hMem, rfl⟩ := List.mem_map.mp hBytes
    have hFits := hs.fits_requests hMem
    intro bytes hBytes
    rcases List.mem_append.mp hBytes with hOld | hNew
    · exact hs.responses bytes hOld
    · rcases handleStream_cut hWire hFits s.scheduler count with hIgnored | ⟨hRead, hHandled⟩
      · rw [hIgnored] at hNew
        cases hNew
      · rw [hHandled, Option.mem_toList] at hNew
        obtain ⟨response, hAnswer, rfl⟩ := Option.map_eq_some_iff.mp hNew
        have hAnswers := answers_handleConnection hs hMem hRead hAnswer
        exact ⟨response, rfl, fits_handleConnection s.scheduler hFits hAnswer,
          length_response_le_readLimit hWire s.scheduler hFits hRead hAnswer, hAnswers⟩
  | report hReported =>
    refine ⟨hSession, hs.calls, ?_, hs.responses⟩
    intro message hMem
    rcases hReported message hMem with hOld | hNew
    · exact hs.reported message hOld
    · exact hNew

end Steps

/-! ## Main results -/

/-- What the streams of a session do to its messages.
* `session`: the calls, the server and the answers are in a state that the session of messages
  has as well.
* `handled`: of a stream of the client, whatever part of it arrives, the server handles the
  message or nothing.
* `readable`: the stream of an answer is read as that answer; a part of it is read as no other
  message and does not stop the receive loop. -/
structure Faithful (wire : Wire) (s : ByteSession) : Prop where
  session : Reachable SchedulerSession.step SchedulerSession.new (s.session wire)
  handled : ∀ bytes ∈ s.requests wire, ∃ message : EngineMessage,
    bytes = wire.engine.serialize message ∧
      ∀ scheduler count, handleStream wire scheduler (bytes.take count) = (scheduler, none) ∨
        handleStream wire scheduler (bytes.take count) =
          ((handleConnection scheduler message).1,
            (handleConnection scheduler message).2.map wire.scheduler.serialize)
  readable : ∀ bytes ∈ s.responses, ∃ message ∈ (s.session wire).responses,
    readStream wire bytes = .message message ∧
      ∀ count, readStream wire (bytes.take count) = .message message ∨
        readStream wire (bytes.take count) = .undecodable

section Main

variable {wire : Wire} {s : ByteSession}

theorem reachable_inv (hWire : wire.Sound) (h : Reachable (step wire) new s) : Inv wire s :=
  h.invariant (fun _ _ _ hs hStep => step_inv hWire hs hStep) (new_inv wire)

/-- Streams that are cut short, repeated, swapped or lost do to the calls what lost, repeated
and swapped messages do. -/
theorem reachable_faithful (hWire : wire.Sound) (h : Reachable (step wire) new s) :
    Faithful wire s := by
  have hs := reachable_inv hWire h
  refine ⟨?_, ?_, ?_⟩
  · exact Reachable.simulate_of_invariant (session wire)
      (fun _ _ _ hu hStep => step_inv hWire hu hStep)
      (fun _ _ _ hu hStep => step_session hWire hu hStep) (new_inv wire) h
  · intro bytes hBytes
    obtain ⟨message, hMem, rfl⟩ := List.mem_map.mp hBytes
    refine ⟨message, rfl, ?_⟩
    intro scheduler count
    exact (handleStream_cut hWire (hs.fits_requests hMem) scheduler count).imp id And.right
  · intro bytes hBytes
    obtain ⟨message, hMem, rfl, hFits, hRead, -⟩ := hs.mem_responses hWire hBytes
    exact ⟨message, hMem, readStream_serialize hWire hFits hRead,
      readStream_cut hWire hFits hRead⟩

/-- What a call gets. With a request over the limit it never has a response. A schedule that
it returns is valid and the server's for its request. -/
structure Answered (wire : Wire) (call : Call) : Prop where
  overLimit : readLimit < (wire.engine.serialize call.request).length → call.responses = []
  result : ∀ assignments, call.phase = .returned (.ok assignments) →
    (wire.engine.serialize call.request).length ≤ readLimit ∧
      Valid assignments call.items call.workerCount ∧
        ∃ scheduler : RoundRobinScheduler,
          (scheduler.schedule call.items call.workerCount).2 = assignments

/-- Below `2 ^ 64` calls, whatever the streams do. -/
theorem reachable_answered (hWire : wire.Sound) (h : Reachable (step wire) new s)
    (hCalls : s.client.calls.length < UInt64.size) :
    ∀ call ∈ s.client.calls, Answered wire call := by
  have hs := reachable_inv hWire h
  intro call hCall
  have hRead : ∀ assignments ∈ call.responses,
      (wire.engine.serialize call.request).length ≤ readLimit := by
    intro assignments hReceived
    have hAnswer := hs.session.delivered call hCall assignments hReceived
    obtain ⟨bytes, hBytes, hDecode⟩ := List.mem_filterMap.mp hAnswer
    obtain ⟨message, -, rfl, hFits, -, hAnswers⟩ := hs.mem_responses hWire hBytes
    rw [hWire.scheduler.lossless message hFits] at hDecode
    cases hDecode
    obtain ⟨other, hOther, hId, hRead⟩ := hAnswers
    -- the answered request has the id of this call, and no other call has it
    obtain ⟨i, hi⟩ := List.mem_iff_getElem?.mp hCall
    obtain ⟨j, hj⟩ := List.mem_iff_getElem?.mp hOther
    have hij := SchedulerSession.distinct_of_inv hs.session hCalls hj hi hId
    subst hij
    rw [hj] at hi
    cases hi
    exact hRead
  constructor
  · intro hOver
    apply List.eq_nil_iff_forall_not_mem.mpr
    intro assignments hReceived
    have hLe := hRead assignments hReceived
    omega
  · intro assignments hReturned
    obtain ⟨i, hi⟩ := List.mem_iff_getElem?.mp hCall
    obtain ⟨hReceived, hValid⟩ := hs.session.results i call assignments hi hReturned
    exact ⟨hRead assignments hReceived, hValid,
      (SchedulerSession.result_of_inv hs.session hCalls hCall hReturned).2⟩

end Main

/-! ## A run -/

section Runs

variable {wire : Wire} {s : ByteSession} {i count : ℕ}

theorem step_serve_truncated (hWire : wire.Sound) {message : EngineMessage} (hFits : Fits message)
    (hStream : (s.requests wire)[i]? = some (wire.engine.serialize message))
    (hCount : count < (wire.engine.serialize message).length) :
    s.step wire (.serve i count) = some s := by
  simp only [step, hStream, Option.map_some, handleStream_truncated hWire hFits hCount,
    Option.toList_none, List.append_nil]

theorem step_serve (hWire : wire.Sound) {message : EngineMessage} (hFits : Fits message)
    (hStream : (s.requests wire)[i]? = some (wire.engine.serialize message))
    (hRead : (wire.engine.serialize message).length ≤ readLimit)
    (hCount : (wire.engine.serialize message).length ≤ count) :
    s.step wire (.serve i count) = some { s with
      scheduler := (handleConnection s.scheduler message).1
      responses := s.responses ++
        ((handleConnection s.scheduler message).2.map wire.scheduler.serialize).toList } := by
  simp only [step, hStream, Option.map_some, List.take_of_length_le hCount,
    handleStream_serialize hWire hFits hRead]

theorem step_receive_truncated (hWire : wire.Sound) {message : SchedulerMessage}
    (hFits : Fits message) (hStream : s.responses[i]? = some (wire.scheduler.serialize message))
    (hRead : (wire.scheduler.serialize message).length ≤ readLimit)
    (hCount : count < (wire.scheduler.serialize message).length) :
    s.step wire (.receive i count) = s.clientStep (.accept .undecodable) := by
  simp only [step, hStream, Option.bind_some, readStream_truncated hWire hFits hRead hCount]

theorem step_receive (hWire : wire.Sound) {message : SchedulerMessage} (hFits : Fits message)
    (hStream : s.responses[i]? = some (wire.scheduler.serialize message))
    (hRead : (wire.scheduler.serialize message).length ≤ readLimit)
    (hCount : (wire.scheduler.serialize message).length ≤ count) :
    s.step wire (.receive i count) = s.clientStep (.accept (.message message)) := by
  simp only [step, hStream, Option.bind_some, List.take_of_length_le hCount,
    readStream_serialize hWire hFits hRead]

/-- One transaction for one worker. -/
def oneTransaction (id : String) (hId : id.utf8ByteSize < UInt64.size) : ScheduleArgs where
  items := [.transaction id 1 []]
  workerCount := 1
  fits := by
    refine ⟨⟨(by decide : 1 < UInt64.size), ?_⟩, (by decide : 1 < UInt64.size)⟩
    intro item hItem
    obtain rfl := List.mem_singleton.mp hItem
    refine ⟨hId, (by decide : 0 < UInt64.size), ?_⟩
    intro account hAccount
    cases hAccount

def oneAssignment (id : String) : WorkerAssignment := ⟨id, 0, false⟩

theorem fits_oneAssignment {id : String} (hId : id.utf8ByteSize < UInt64.size) :
    Fits [oneAssignment id] := by
  refine ⟨(by decide : 1 < UInt64.size), ?_⟩
  intro a ha
  obtain rfl := List.mem_singleton.mp ha
  exact ⟨hId, (by decide : 0 < UInt64.size)⟩

theorem size_a : "a".utf8ByteSize < UInt64.size := by decide

theorem size_b : "b".utf8ByteSize < UInt64.size := by decide

/-- Two calls send their requests. -/
def twoCalls : List Act :=
  [.schedule (oneTransaction "a" size_a), .schedule (oneTransaction "b" size_b)] ++
    List.replicate 6 (.call 0 .proceed) ++ List.replicate 6 (.call 1 .proceed)

/-- What the client does with their answers, the second one first. -/
def twoAnswers : List Client.Act :=
  [.lockConnection, .accept .undecodable, .lockConnection,
    .accept (.message (.scheduleResponse 2 [oneAssignment "b"])), .handle, .lockConnection,
    .accept (.message (.scheduleResponse 1 [oneAssignment "a"])), .handle, .call 0 .proceed,
    .call 1 .proceed]

/-- The second request is served first. A part of it arrives before, and a part of its answer. -/
theorem reachable_twoCalls (hWire : wire.Sound) : ∃ s, Reachable (step wire) new s ∧
    s.client.calls =
      [⟨1, [.transaction "a" 1 []], 1, [[oneAssignment "a"]], .returned (.ok [oneAssignment "a"])⟩,
        ⟨2, [.transaction "b" 1 []], 1, [[oneAssignment "b"]],
          .returned (.ok [oneAssignment "b"])⟩] := by
  let sent : ByteSession := (run (step wire) new twoCalls).getD new
  let requestA : EngineMessage := .scheduleRequest 1 [.transaction "a" 1 []] 1
  let requestB : EngineMessage := .scheduleRequest 2 [.transaction "b" 1 []] 1
  let answerA : SchedulerMessage := .scheduleResponse 1 [oneAssignment "a"]
  let answerB : SchedulerMessage := .scheduleResponse 2 [oneAssignment "b"]
  have hFitsA : Fits requestA := (oneTransaction "a" size_a).fits
  have hFitsB : Fits requestB := (oneTransaction "b" size_b).fits
  have hFitsA' : Fits answerA := fits_oneAssignment size_a
  have hFitsB' : Fits answerB := fits_oneAssignment size_b
  have hSizeA : (wire.engine.serialize requestA).length = 57 := hWire.engine.size _ hFitsA
  have hSizeB : (wire.engine.serialize requestB).length = 57 := hWire.engine.size _ hFitsB
  have hSizeA' : (wire.scheduler.serialize answerA).length = 38 := hWire.scheduler.size _ hFitsA'
  have hSizeB' : (wire.scheduler.serialize answerB).length = 38 := hWire.scheduler.size _ hFitsB'
  -- the server
  let servedB : ByteSession := { sent with responses := [wire.scheduler.serialize answerB] }
  let served : ByteSession :=
    { sent with
      responses := [wire.scheduler.serialize answerB, wire.scheduler.serialize answerA] }
  have hSent : Reachable (step wire) new sent := ⟨twoCalls, rfl⟩
  have hPart : sent.step wire (.serve 1 20) = some sent :=
    step_serve_truncated hWire hFitsB rfl (by rw [hSizeB]; decide)
  have hServeB : sent.step wire (.serve 1 100) = some servedB :=
    step_serve hWire hFitsB rfl (by rw [hSizeB]; decide) (by rw [hSizeB]; decide)
  have hServeA : servedB.step wire (.serve 0 100) = some served :=
    step_serve hWire hFitsA rfl (by rw [hSizeA]; decide) (by rw [hSizeA]; decide)
  -- the client
  let after : ℕ → ByteSession := fun k =>
    { served with
      client := (run Client.step sent.client (twoAnswers.take k)).getD sent.client }
  have hServed : Reachable (step wire) new (after 0) :=
    ((hSent.trans (.single hPart)).trans (.single hServeB)).trans (.single hServeA)
  have hLock : (after 0).step wire .lockConnection = some (after 1) := rfl
  have hPart' : (after 1).step wire (.receive 0 20) = some (after 2) :=
    step_receive_truncated hWire hFitsB' rfl (by rw [hSizeB']; decide) (by rw [hSizeB']; decide)
  have hLock' : (after 2).step wire .lockConnection = some (after 3) := rfl
  have hReceiveB : (after 3).step wire (.receive 0 100) = some (after 4) :=
    step_receive hWire hFitsB' rfl (by rw [hSizeB']; decide) (by rw [hSizeB']; decide)
  have hHandle : run (step wire) (after 4) [.handle, .lockConnection] = some (after 6) := rfl
  have hReceiveA : (after 6).step wire (.receive 1 100) = some (after 7) :=
    step_receive hWire hFitsA' rfl (by rw [hSizeA']; decide) (by rw [hSizeA']; decide)
  have hReturn : run (step wire) (after 7)
      [.handle, .call 0 .proceed, .call 1 .proceed] = some (after 10) := rfl
  have hReceived := ((((hServed.trans (.single hLock)).trans (.single hPart')).trans
    (.single hLock')).trans (.single hReceiveB)).trans ⟨_, hHandle⟩
  exact ⟨after 10, (hReceived.trans (.single hReceiveA)).trans ⟨_, hReturn⟩, rfl⟩

end Runs

/-- Both sides use the default encoding. -/
noncomputable def defaultWire : Wire := ⟨.ofEncoding EngineMessage, .ofEncoding SchedulerMessage⟩

theorem sound_defaultWire : defaultWire.Sound :=
  ⟨Codec.sound_ofEncoding EngineMessage, Codec.sound_ofEncoding SchedulerMessage⟩

theorem reachable_faithful_twoCalls :
    ∃ s, Reachable (step defaultWire) new s ∧ s.client.calls.length = 2 ∧
      Faithful defaultWire s := by
  obtain ⟨s, hReachable, hCalls⟩ := reachable_twoCalls sound_defaultWire
  refine ⟨s, hReachable, ?_, reachable_faithful sound_defaultWire hReachable⟩
  rw [hCalls]
  rfl

theorem reachable_answered_twoCalls :
    ∃ s, Reachable (step defaultWire) new s ∧ s.client.calls.length = 2 ∧
      ∀ call ∈ s.client.calls, Answered defaultWire call := by
  obtain ⟨s, hReachable, hCalls⟩ := reachable_twoCalls sound_defaultWire
  have hLength : s.client.calls.length = 2 := by
    rw [hCalls]
    rfl
  refine ⟨s, hReachable, hLength, reachable_answered sound_defaultWire hReachable ?_⟩
  rw [hLength]
  decide

end ByteSession

end Blunder
