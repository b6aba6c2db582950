import Blunder.Core.Protocol
import Blunder.Foundation.HashMap
import Blunder.Foundation.Transition

/-!
# The client of an external scheduler

Any number of `ExternalSchedulerClient::schedule` calls run on one client, next to its
receive loop. A call numbers its request, serializes it, registers a channel for the
response, sends the request while it holds the connection, and waits for the response
or the timeout. The loop hands each response to the channel registered for its id. A
state has the point that every call has reached; a step is what happens between two
points where other tasks may run. The peer is arbitrary: the loop may be given any
stream at any time, and any operation on the connection may fail.

* `validateAssignments_eq_ok_iff`: what the validation accepts.
* `returned_valid`: what a call that returns a schedule has checked.
-/

namespace Blunder.ExternalSchedulerClient

open Foundation.HashMap Foundation.Transition

/-! ## Validation -/

/-- The loop of `validate_assignments`. -/
def validateFrom (items : List ExecutionUnitData) (workerCount : ℕ) :
    Finset String → List WorkerAssignment → Except MevError Unit
  | _, [] => .ok ()
  | seen, a :: assignments =>
    if a.unitId ∈ seen then .error (.invalidAssignment "Duplicate assignment")
    else if a.unitId ∉ items.map ExecutionUnitData.id then
      .error (.invalidAssignment ("Unknown unit_id: " ++ a.unitId))
    else if workerCount ≤ a.workerId then
      .error (.invalidAssignment ("Invalid worker_id: " ++ toString a.workerId))
    else validateFrom items workerCount (insert a.unitId seen) assignments

def validateAssignments (assignments : List WorkerAssignment) (items : List ExecutionUnitData)
    (workerCount : ℕ) : Except MevError Unit :=
  validateFrom items workerCount ∅ assignments

/-- Every assignment names an item, no item is named twice and every worker exists. -/
structure Valid (assignments : List WorkerAssignment) (items : List ExecutionUnitData)
    (workerCount : ℕ) : Prop where
  distinct : (assignments.map WorkerAssignment.unitId).Nodup
  known : ∀ a ∈ assignments, ∃ item ∈ items, item.id = a.unitId
  inRange : ∀ a ∈ assignments, a.workerId < workerCount

/-- The assignments are those of the items, each with its kind. -/
def Covers (assignments : List WorkerAssignment) (items : List ExecutionUnitData)
    (workerCount : ℕ) : Prop :=
  ∃ order : List ExecutionUnitData, order.Perm items ∧
    List.Forall₂ (fun item a => a.unitId = item.id ∧ a.workerId < workerCount ∧
      a.isBundle = item.isBundle) order assignments

theorem validateFrom_eq_ok_iff {items : List ExecutionUnitData} {workerCount : ℕ}
    {seen : Finset String} {assignments : List WorkerAssignment} :
    validateFrom items workerCount seen assignments = .ok () ↔
      Valid assignments items workerCount ∧ ∀ a ∈ assignments, a.unitId ∉ seen := by
  induction assignments generalizing seen with
  | nil =>
    refine iff_of_true rfl ⟨⟨List.nodup_nil, ?_, ?_⟩, ?_⟩ <;>
    · intro a ha
      cases ha
  | cons a assignments ih =>
    have hKnown : a.unitId ∈ items.map ExecutionUnitData.id ↔ ∃ item ∈ items, item.id = a.unitId :=
      List.mem_map
    constructor
    · intro h
      rw [validateFrom] at h
      split at h
      · cases h
      split at h
      · cases h
      split at h
      · cases h
      rename_i hSeen hId hWorker
      obtain ⟨hValid, hFresh⟩ := ih.mp h
      refine ⟨⟨?_, ?_, ?_⟩, ?_⟩
      · refine List.nodup_cons.mpr ⟨?_, hValid.distinct⟩
        intro hMem
        obtain ⟨b, hb, hba⟩ := List.mem_map.mp hMem
        apply hFresh b hb
        rw [hba]
        exact Finset.mem_insert_self _ _
      · exact List.forall_mem_cons.mpr ⟨hKnown.mp (not_not.mp hId), hValid.known⟩
      · exact List.forall_mem_cons.mpr ⟨Nat.lt_of_not_le hWorker, hValid.inRange⟩
      · refine List.forall_mem_cons.mpr ⟨hSeen, ?_⟩
        intro b hb hMem
        exact hFresh b hb (Finset.mem_insert_of_mem hMem)
    · rintro ⟨hValid, hFresh⟩
      obtain ⟨hSeen, hFresh⟩ := List.forall_mem_cons.mp hFresh
      obtain ⟨hId, hIds⟩ := List.forall_mem_cons.mp hValid.known
      obtain ⟨hWorker, hWorkers⟩ := List.forall_mem_cons.mp hValid.inRange
      obtain ⟨hHead, hDistinct⟩ := List.nodup_cons.mp hValid.distinct
      rw [validateFrom, if_neg hSeen, if_neg (not_not.mpr (hKnown.mpr hId)),
        if_neg (Nat.not_le.mpr hWorker)]
      apply ih.mpr
      refine ⟨⟨hDistinct, hIds, hWorkers⟩, ?_⟩
      intro b hb hMem
      rcases Finset.mem_insert.mp hMem with hSame | hMem
      · apply hHead
        rw [← hSame]
        exact List.mem_map_of_mem hb
      · exact hFresh b hb hMem

theorem validateAssignments_eq_ok_iff {assignments : List WorkerAssignment}
    {items : List ExecutionUnitData} {workerCount : ℕ} :
    validateAssignments assignments items workerCount = .ok () ↔
      Valid assignments items workerCount := by
  rw [validateAssignments, validateFrom_eq_ok_iff]
  constructor
  · intro h
    exact h.1
  · intro h
    exact ⟨h, fun a _ => Finset.notMem_empty _⟩

/-! ## Calls -/

/-- The operations on the connection while a call holds it. -/
inductive SendStage
  | opening
  | writing
  | finishing
deriving DecidableEq

def SendStage.error (message : String) : SendStage → MevError
  | .opening => .networkError ("Stream open failed: " ++ message)
  | .writing => .networkError ("Send failed: " ++ message)
  | .finishing => .networkError ("Finish failed: " ++ message)

/-- The point that a call of `schedule` has reached. -/
inductive CallPhase
  | numbered
  | serialized
  | registered
  | sending (stage : SendStage)
  | waiting
  | timedOut
  | returned (result : Except MevError (List WorkerAssignment))
deriving DecidableEq

/-- `responses` is what has been sent on the channel of the call. -/
structure Call where
  requestId : UInt64
  items : List ExecutionUnitData
  workerCount : ℕ
  responses : List (List WorkerAssignment)
  phase : CallPhase
deriving DecidableEq

def Call.request (call : Call) : EngineMessage :=
  .scheduleRequest call.requestId call.items call.workerCount

/-- `Err(MevError::Timeout(..))`. -/
def timeoutError : MevError := .timeout "Scheduler timeout"

/-- Sending on the channel of a call, which is closed once the call has returned. -/
def Call.deliver (assignments : List WorkerAssignment) (call : Call) : Call :=
  match call.phase with
  | .returned _ => call
  | _ => { call with responses := call.responses ++ [assignments] }

/-- The timeout of the call has fired. -/
def Call.Expired (call : Call) : Prop :=
  call.phase = .timedOut ∨ call.phase = .returned (.error timeoutError)

/-- The second is a later state of the first: the request stays, and so do a result and
an expiry. -/
structure Call.Extends (call call' : Call) : Prop where
  requestId : call'.requestId = call.requestId
  items : call'.items = call.items
  workerCount : call'.workerCount = call.workerCount
  returned : ∀ result, call.phase = .returned result → call'.phase = .returned result
  expired : call.Expired → call'.Expired

theorem Call.Extends.refl (call : Call) : call.Extends call :=
  ⟨rfl, rfl, rfl, fun _ h => h, fun h => h⟩

theorem Call.Extends.trans {call call' call'' : Call} (h : call.Extends call')
    (h' : call'.Extends call'') : call.Extends call'' where
  requestId := h'.requestId.trans h.requestId
  items := h'.items.trans h.items
  workerCount := h'.workerCount.trans h.workerCount
  returned result hResult := h'.returned result (h.returned result hResult)
  expired hExpired := h'.expired (h.expired hExpired)

/-- A response changes the channel of a call and nothing else. -/
theorem Call.deliver_phase (assignments : List WorkerAssignment) (call : Call) :
    (call.deliver assignments).phase = call.phase := by
  unfold Call.deliver
  split <;> rfl

theorem Call.mem_responses_deliver {assignments received : List WorkerAssignment} {call : Call}
    (h : received ∈ (call.deliver assignments).responses) :
    received ∈ call.responses ∨ received = assignments := by
  unfold Call.deliver at h
  split at h
  · exact Or.inl h
  · rcases List.mem_append.mp h with hOld | hNew
    · exact Or.inl hOld
    · exact Or.inr (List.mem_singleton.mp hNew)

theorem Call.Extends.request {call call' : Call} (h : call.Extends call') :
    call'.request = call.request := by
  rw [Call.request, Call.request, h.requestId, h.items, h.workerCount]

theorem Call.extends_deliver (assignments : List WorkerAssignment) (call : Call) :
    call.Extends (call.deliver assignments) := by
  have hPhase := Call.deliver_phase assignments call
  refine ⟨?_, ?_, ?_, ?_, ?_⟩
  · unfold Call.deliver
    split <;> rfl
  · unfold Call.deliver
    split <;> rfl
  · unfold Call.deliver
    split <;> rfl
  · intro result hResult
    rw [hPhase, hResult]
  · intro hExpired
    rwa [Call.Expired, hPhase]

/-! ## The client -/

/-- What `accept_uni` and `read_to_end` make of the next stream. -/
inductive IncomingStream
  | closed
  | unreadable
  | undecodable
  | message (message : SchedulerMessage)
deriving DecidableEq

/-- The point that the receive loop has reached. -/
inductive LoopPhase
  | locking
  | accepting
  | handling (message : SchedulerMessage)
  | stopped
deriving DecidableEq

/-- A pending request holds the index of the call whose channel it sends to. The guard
of the connection is held by a call while it sends. From the write on a request may
reach the peer (`sent`). -/
structure Client where
  connected : Bool
  requestCounter : UInt64
  pendingRequests : Map UInt64 ℕ
  connectionGuard : Option ℕ
  calls : List Call
  sent : List EngineMessage
  receiveLoop : LoopPhase

/-- A client before its first call; `connect` makes it with a connection. -/
def Client.new (connected : Bool) : Client where
  connected := connected
  requestCounter := 0
  pendingRequests := ∅
  connectionGuard := none
  calls := []
  sent := []
  receiveLoop := .locking

namespace Client

def setPhase (s : Client) (c : ℕ) (call : Call) (phase : CallPhase) : Client :=
  { s with calls := s.calls.set c { call with phase } }

inductive CallAct
  | proceed
  | fail (message : String)
  | timeout

/-- The next step of the call with index `c`. A waiting call proceeds when there is a
response; both branches of its `select!` may be ready. -/
def callStep (s : Client) (c : ℕ) (call : Call) (act : CallAct) : Option Client :=
  match call.phase, act with
  | .numbered, .proceed => some (s.setPhase c call .serialized)
  | .numbered, .fail message =>
    some (s.setPhase c call (.returned (.error (.serializationError message))))
  | .serialized, .proceed =>
    some { s.setPhase c call .registered with
      pendingRequests := s.pendingRequests.insert call.requestId c }
  | .registered, .proceed =>
    if s.connectionGuard ≠ none then none
    else if s.connected then
      some { s.setPhase c call (.sending .opening) with connectionGuard := some c }
    else some (s.setPhase c call (.returned (.error (.networkError "Not connected"))))
  | .sending .opening, .proceed => some (s.setPhase c call (.sending .writing))
  | .sending .writing, .proceed =>
    some { s.setPhase c call (.sending .finishing) with sent := s.sent ++ [call.request] }
  | .sending .finishing, .proceed =>
    some { s.setPhase c call .waiting with connectionGuard := none }
  | .sending stage, .fail message =>
    some { s.setPhase c call (.returned (.error (stage.error message))) with
      connectionGuard := none }
  | .waiting, .proceed =>
    match call.responses with
    | [] => none
    | assignments :: _ =>
      let result := (validateAssignments assignments call.items call.workerCount).map
        fun _ => assignments
      some (s.setPhase c call (.returned result))
  | .waiting, .timeout => some (s.setPhase c call .timedOut)
  | .timedOut, .proceed =>
    some { s.setPhase c call (.returned (.error timeoutError)) with
      pendingRequests := s.pendingRequests.erase call.requestId }
  | _, _ => none

def handleMessage (s : Client) : SchedulerMessage → Client
  | .scheduleResponse requestId assignments =>
    match s.pendingRequests.lookup requestId with
    | none => s
    | some c =>
      { s with
        pendingRequests := s.pendingRequests.erase requestId
        calls := s.calls.modify c (Call.deliver assignments) }
  | _ => s

/-- A call that has just taken its number. -/
def nextCall (s : Client) (items : List ExecutionUnitData) (workerCount : ℕ) : Call where
  requestId := s.requestCounter + 1
  items := items
  workerCount := workerCount
  responses := []
  phase := .numbered

inductive Act
  | start (items : List ExecutionUnitData) (workerCount : ℕ)
  | call (c : ℕ) (act : CallAct)
  | lockConnection
  | accept (stream : IncomingStream)
  | handle

/-- A call begins with taking its number; the receive loop locks the connection, takes
the next stream and handles its message. -/
def step (s : Client) : Act → Option Client
  | .start items workerCount =>
    some { s with
      requestCounter := s.requestCounter + 1
      calls := s.calls ++ [s.nextCall items workerCount] }
  | .call c act => (s.calls[c]?).bind fun call => s.callStep c call act
  | .lockConnection =>
    if s.receiveLoop = .locking ∧ s.connectionGuard = none then
      some { s with receiveLoop := if s.connected then .accepting else .stopped }
    else none
  | .accept stream =>
    if s.receiveLoop = .accepting then
      match stream with
      | .closed => some { s with receiveLoop := .stopped }
      | .unreadable => some { s with receiveLoop := .stopped }
      | .undecodable => some { s with receiveLoop := .locking }
      | .message message => some { s with receiveLoop := .handling message }
    else none
  | .handle =>
    match s.receiveLoop with
    | .handling message => some { s.handleMessage message with receiveLoop := .locking }
    | _ => none

/-! ## The rules of a call -/

/-- What a step of the call with index `c` does, by the point it is taken from: the
next point and the client apart from it. -/
inductive CallStep (s : Client) (c : ℕ) (call : Call) : CallAct → CallPhase → Client → Prop
  | serialize (hPhase : call.phase = .numbered) : CallStep s c call .proceed .serialized s
  | failToSerialize {message} (hPhase : call.phase = .numbered) :
    CallStep s c call (.fail message) (.returned (.error (.serializationError message))) s
  | register (hPhase : call.phase = .serialized) :
    CallStep s c call .proceed .registered
      { s with pendingRequests := s.pendingRequests.insert call.requestId c }
  | lock (hPhase : call.phase = .registered) (hConnected : s.connected = true) :
    CallStep s c call .proceed (.sending .opening) { s with connectionGuard := some c }
  | notConnected (hPhase : call.phase = .registered) (hConnected : s.connected = false) :
    CallStep s c call .proceed (.returned (.error (.networkError "Not connected"))) s
  | openStream (hPhase : call.phase = .sending .opening) :
    CallStep s c call .proceed (.sending .writing) s
  | write (hPhase : call.phase = .sending .writing) :
    CallStep s c call .proceed (.sending .finishing) { s with sent := s.sent ++ [call.request] }
  | finish (hPhase : call.phase = .sending .finishing) :
    CallStep s c call .proceed .waiting { s with connectionGuard := none }
  | failToSend {stage message} (hPhase : call.phase = .sending stage) :
    CallStep s c call (.fail message) (.returned (.error (stage.error message)))
      { s with connectionGuard := none }
  | receive {assignments} (hPhase : call.phase = .waiting) (hMem : assignments ∈ call.responses) :
    CallStep s c call .proceed (.returned
      ((validateAssignments assignments call.items call.workerCount).map fun _ => assignments)) s
  | timeOut (hPhase : call.phase = .waiting) : CallStep s c call .timeout .timedOut s
  | expire (hPhase : call.phase = .timedOut) :
    CallStep s c call .proceed (.returned (.error timeoutError))
      { s with pendingRequests := s.pendingRequests.erase call.requestId }

section Steps

variable {s s' t : Client} {c i : ℕ} {call call' : Call}

theorem callStep_cases {act : CallAct} (h : s.callStep c call act = some s') :
    ∃ phase t, CallStep s c call act phase t ∧ s' = t.setPhase c call phase := by
  unfold callStep at h
  split at h
  · rename_i hPhase
    cases h
    exact ⟨_, _, CallStep.serialize hPhase, rfl⟩
  · rename_i hPhase
    cases h
    exact ⟨_, _, CallStep.failToSerialize hPhase, rfl⟩
  · rename_i hPhase
    cases h
    exact ⟨_, _, CallStep.register hPhase, rfl⟩
  · rename_i hPhase
    split at h
    · cases h
    · split at h
      · rename_i hConnected
        cases h
        exact ⟨_, _, CallStep.lock hPhase hConnected, rfl⟩
      · rename_i hConnected
        cases h
        exact ⟨_, _, CallStep.notConnected hPhase (Bool.not_eq_true _ ▸ hConnected), rfl⟩
  · rename_i hPhase
    cases h
    exact ⟨_, _, CallStep.openStream hPhase, rfl⟩
  · rename_i hPhase
    cases h
    exact ⟨_, _, CallStep.write hPhase, rfl⟩
  · rename_i hPhase
    cases h
    exact ⟨_, _, CallStep.finish hPhase, rfl⟩
  · rename_i hPhase
    cases h
    exact ⟨_, _, CallStep.failToSend hPhase, rfl⟩
  · rename_i hPhase
    split at h
    · cases h
    · rename_i assignments rest hResponses
      cases h
      have hMem : assignments ∈ call.responses := by
        rw [hResponses]
        exact List.mem_cons_self
      exact ⟨_, _, CallStep.receive hPhase hMem, rfl⟩
  · rename_i hPhase
    cases h
    exact ⟨_, _, CallStep.timeOut hPhase, rfl⟩
  · rename_i hPhase
    cases h
    exact ⟨_, _, CallStep.expire hPhase, rfl⟩
  · cases h

theorem CallStep.calls_eq {act : CallAct} {phase : CallPhase} (h : CallStep s c call act phase t) :
    t.calls = s.calls := by
  cases h <;> rfl

/-- What a step does. A response that nobody waits for is dropped like any other
message. -/
inductive Step (s : Client) : Act → Client → Prop
  | start {items workerCount} : Step s (.start items workerCount)
      { s with
        requestCounter := s.requestCounter + 1
        calls := s.calls ++ [s.nextCall items workerCount] }
  | call {c call act phase t} (hCall : s.calls[c]? = some call)
      (hStep : CallStep s c call act phase t) :
    Step s (.call c act) (t.setPhase c call phase)
  | listen {act receiveLoop}
      (hLoop : ∀ message, receiveLoop = .handling message → act = .accept (.message message)) :
    Step s act { s with receiveLoop }
  | deliver {requestId assignments c}
      (hLoop : s.receiveLoop = .handling (.scheduleResponse requestId assignments))
      (hPending : s.pendingRequests.lookup requestId = some c) :
    Step s .handle { s with
      pendingRequests := s.pendingRequests.erase requestId
      calls := s.calls.modify c (Call.deliver assignments)
      receiveLoop := .locking }

theorem step_cases {act : Act} (h : s.step act = some s') : Step s act s' := by
  have hLocking : ∀ message, LoopPhase.locking = .handling message → act = .accept (.message message) := by
    intro message hLoop
    cases hLoop
  cases act with
  | start items workerCount =>
    cases h
    exact Step.start
  | call c act =>
    obtain ⟨call, hCall, hStep⟩ := Option.bind_eq_some_iff.mp h
    obtain ⟨phase, t, hRule, rfl⟩ := callStep_cases hStep
    exact Step.call hCall hRule
  | lockConnection =>
    rw [step] at h
    split at h
    · cases h
      apply Step.listen
      intro message hLoop
      split at hLoop <;> cases hLoop
    · cases h
  | accept stream =>
    cases stream with
    | message message =>
      rw [step] at h
      split at h
      · cases h
        apply Step.listen
        rintro _ ⟨⟩
        rfl
      · cases h
    | _ =>
      rw [step] at h
      split at h
      · cases h
        apply Step.listen
        intro message hLoop
        cases hLoop
      · cases h
  | handle =>
    rw [step] at h
    split at h
    · rename_i message hLoop
      cases h
      cases message with
      | scheduleResponse requestId assignments =>
        rw [handleMessage]
        split
        · exact Step.listen hLocking
        · rename_i c hPending
          exact Step.deliver hLoop hPending
      | heartbeatAck timestampUs => exact Step.listen hLocking
      | ready => exact Step.listen hLocking
    · cases h

/-- Where the calls of a state come from. -/
theorem Step.call_cases {act : Act} (h : Step s act s') (hCall : s'.calls[i]? = some call') :
    s.calls[i]? = some call' ∨
      (∃ items workerCount, i = s.calls.length ∧ call' = s.nextCall items workerCount) ∨
      (∃ call callAct phase t, s.calls[i]? = some call ∧ act = .call i callAct ∧
        CallStep s i call callAct phase t ∧ s' = t.setPhase i call phase ∧
        call' = { call with phase }) ∨
      ∃ call requestId assignments, s.calls[i]? = some call ∧
        s.receiveLoop = .handling (.scheduleResponse requestId assignments) ∧
        s.pendingRequests.lookup requestId = some i ∧
        s'.pendingRequests = s.pendingRequests.erase requestId ∧
        call' = call.deliver assignments := by
  cases h with
  | start =>
    rcases Nat.lt_or_ge i s.calls.length with hLt | hGe
    · left
      rwa [List.getElem?_append_left hLt] at hCall
    · right
      left
      have hEq : i = s.calls.length := by
        have hBound := (List.getElem?_eq_some_iff.mp hCall).1
        rw [List.length_append, List.length_singleton] at hBound
        omega
      subst hEq
      rw [List.getElem?_concat_length] at hCall
      exact ⟨_, _, rfl, (Option.some.inj hCall).symm⟩
  | @call c call act phase t hOld hStep =>
    rw [setPhase, hStep.calls_eq] at hCall
    by_cases hic : c = i
    · subst hic
      right
      right
      left
      have hLt := (List.getElem?_eq_some_iff.mp hOld).1
      rw [List.getElem?_set_self hLt] at hCall
      exact ⟨call, act, phase, t, hOld, rfl, hStep, rfl, (Option.some.inj hCall).symm⟩
    · left
      rwa [List.getElem?_set_ne hic] at hCall
  | listen => exact Or.inl hCall
  | @deliver requestId assignments c hLoop hPending =>
    rw [List.getElem?_modify] at hCall
    obtain ⟨call, hOld, hNew⟩ := Option.map_eq_some_iff.mp hCall
    by_cases hic : c = i
    · subst hic
      rw [if_pos rfl] at hNew
      right
      right
      right
      exact ⟨call, requestId, assignments, hOld, hLoop, hPending, rfl, hNew.symm⟩
    · rw [if_neg hic] at hNew
      left
      rw [hOld, hNew]

/-- A call that has returned takes no step. -/
theorem CallStep.phase_ne_returned {act : CallAct} {phase : CallPhase}
    (h : CallStep s c call act phase t) (result : Except MevError (List WorkerAssignment)) :
    call.phase ≠ .returned result := by
  intro hReturned
  cases h <;> simp_all

theorem CallStep.extends {act : CallAct} {phase : CallPhase} (h : CallStep s c call act phase t) :
    call.Extends { call with phase } := by
  refine ⟨rfl, rfl, rfl, ?_, ?_⟩
  · intro result hResult
    exact absurd hResult (h.phase_ne_returned result)
  · rintro (hTimedOut | hReturned)
    · cases h with
      | expire => exact Or.inr rfl
      | _ => simp_all
    · exact absurd hReturned (h.phase_ne_returned _)

/-- Every call goes on from where it was. -/
theorem Step.extends {act : Act} (h : Step s act s') (hCall : s.calls[i]? = some call) :
    ∃ call', s'.calls[i]? = some call' ∧ call.Extends call' := by
  cases h with
  | start =>
    have hLt := (List.getElem?_eq_some_iff.mp hCall).1
    exact ⟨call, (List.getElem?_append_left hLt).trans hCall, Call.Extends.refl call⟩
  | @call c stepped act phase t hOld hStep =>
    rw [setPhase, hStep.calls_eq]
    by_cases hic : c = i
    · subst hic
      rw [hOld] at hCall
      cases hCall
      have hLt := (List.getElem?_eq_some_iff.mp hOld).1
      exact ⟨_, List.getElem?_set_self hLt, hStep.extends⟩
    · exact ⟨call, (List.getElem?_set_ne hic).trans hCall, Call.Extends.refl call⟩
  | listen => exact ⟨call, hCall, Call.Extends.refl call⟩
  | @deliver requestId assignments c hLoop hPending =>
    rw [List.getElem?_modify, hCall]
    by_cases hic : c = i
    · refine ⟨_, ?_, Call.extends_deliver assignments call⟩
      simp [hic]
    · refine ⟨call, ?_, Call.Extends.refl call⟩
      simp [hic]

/-- Numbers are handed out in order; the counter wraps. -/
theorem Step.numbered {act : Act} (h : Step s act s')
    (hCounter : s.requestCounter = UInt64.ofNat s.calls.length)
    (hNumbered : ∀ i call, s.calls[i]? = some call → call.requestId = UInt64.ofNat (i + 1)) :
    s'.requestCounter = UInt64.ofNat s'.calls.length ∧
      ∀ i call, s'.calls[i]? = some call → call.requestId = UInt64.ofNat (i + 1) := by
  have hNext : s.requestCounter + 1 = UInt64.ofNat (s.calls.length + 1) := by
    rw [hCounter, UInt64.ofNat_add]
    rfl
  constructor
  · cases h with
    | start =>
      rw [List.length_append, List.length_singleton]
      exact hNext
    | @call c call act phase t hCall hStep =>
      rw [setPhase, List.length_set, hStep.calls_eq, ← hCounter]
      cases hStep <;> rfl
    | listen => exact hCounter
    | deliver =>
      rw [List.length_modify]
      exact hCounter
  · intro i call' hCall
    rcases h.call_cases hCall with hOld | ⟨items, workerCount, rfl, rfl⟩ |
        ⟨call, callAct, phase, t, hOld, -, -, -, rfl⟩ | ⟨call, requestId, assignments, hOld, -, -, -, rfl⟩
    · exact hNumbered i call' hOld
    · exact hNext
    · exact hNumbered i call hOld
    · rw [(Call.extends_deliver assignments call).requestId]
      exact hNumbered i call hOld

/-- A request is sent by a call. -/
theorem Step.sent_cases {act : Act} {message : EngineMessage} (h : Step s act s')
    (hSent : message ∈ s'.sent) : message ∈ s.sent ∨ ∃ call ∈ s.calls, message = call.request := by
  cases h with
  | @call c call act phase t hCall hStep =>
    cases hStep with
    | write hPhase =>
      rcases List.mem_append.mp hSent with hOld | hNew
      · exact Or.inl hOld
      · exact Or.inr ⟨call, List.mem_of_getElem? hCall, List.mem_singleton.mp hNew⟩
    | _ => exact Or.inl hSent
  | _ => exact Or.inl hSent

theorem Step.extends_mem {act : Act} (h : Step s act s') (hCall : call ∈ s.calls) :
    ∃ call' ∈ s'.calls, call.Extends call' := by
  obtain ⟨i, hi⟩ := List.mem_iff_getElem?.mp hCall
  obtain ⟨call', hCall', hExtends⟩ := h.extends hi
  exact ⟨call', List.mem_of_getElem? hCall', hExtends⟩

/-- The loop handles what it has accepted. -/
theorem Step.handling_cases {act : Act} {message : SchedulerMessage} (h : Step s act s')
    (hLoop : s'.receiveLoop = .handling message) :
    s.receiveLoop = .handling message ∨ act = .accept (.message message) := by
  cases h with
  | start => exact Or.inl hLoop
  | @call c call act phase t hCall hStep =>
    left
    rw [← hLoop]
    cases hStep <;> rfl
  | listen hAccepted => exact Or.inr (hAccepted message hLoop)
  | deliver => cases hLoop

/-- Where the pending requests of a state come from. -/
theorem Step.pending_cases {act : Act} {requestId : UInt64} (h : Step s act s')
    (hPending : s'.pendingRequests.lookup requestId = some i) :
    s.pendingRequests.lookup requestId = some i ∨
      ∃ call, s.calls[i]? = some call ∧ call.requestId = requestId ∧ call.phase = .serialized ∧
        s'.calls = s.calls.set i { call with phase := .registered } := by
  have hErase : ∀ erased : UInt64, (s.pendingRequests.erase erased).lookup requestId = some i →
      s.pendingRequests.lookup requestId = some i := by
    intro erased hLookup
    by_cases hSame : requestId = erased
    · rw [hSame, Finmap.lookup_erase] at hLookup
      cases hLookup
    · rwa [Finmap.lookup_erase_ne hSame] at hLookup
  cases h with
  | start => exact Or.inl hPending
  | @call c call act phase t hCall hStep =>
    cases hStep with
    | register hPhase =>
      by_cases hSame : requestId = call.requestId
      · subst hSame
        rw [setPhase, Finmap.lookup_insert] at hPending
        cases hPending
        exact Or.inr ⟨call, hCall, rfl, hPhase, rfl⟩
      · rw [setPhase, Finmap.lookup_insert_of_ne _ hSame] at hPending
        exact Or.inl hPending
    | expire => exact Or.inl (hErase _ hPending)
    | _ => exact Or.inl hPending
  | listen => exact Or.inl hPending
  | deliver => exact Or.inl (hErase _ hPending)

end Steps

/-! ## Validated results -/

section Results

variable {s s' : Client}

/-- A schedule that a call has returned was sent to it and passed the validation. -/
def ResultsValid (s : Client) : Prop :=
  ∀ (i : ℕ) (call : Call) (assignments : List WorkerAssignment), s.calls[i]? = some call →
    call.phase = .returned (.ok assignments) →
      assignments ∈ call.responses ∧ Valid assignments call.items call.workerCount

theorem returned_ok_of_step {c : ℕ} {call : Call} {callAct : CallAct} {t : Client}
    {assignments : List WorkerAssignment}
    (h : CallStep s c call callAct (.returned (.ok assignments)) t) :
    assignments ∈ call.responses ∧ Valid assignments call.items call.workerCount := by
  generalize hPhase' : CallPhase.returned (.ok assignments) = phase at h
  cases h with
  | @receive received hPhase hMem =>
    cases hValid : validateAssignments received call.items call.workerCount with
    | error e =>
      rw [hValid] at hPhase'
      cases hPhase'
    | ok u =>
      rw [hValid] at hPhase'
      cases hPhase'
      exact ⟨hMem, validateAssignments_eq_ok_iff.mp hValid⟩
  | _ => cases hPhase'

theorem resultsValid_step {act : Act} (hs : ResultsValid s) (h : s.step act = some s') :
    ResultsValid s' := by
  intro i call' assignments hCall hReturned
  rcases (step_cases h).call_cases hCall with hOld | ⟨items, workerCount, -, rfl⟩ |
      ⟨call, callAct, phase, t, hOld, -, hStep, -, rfl⟩ |
      ⟨call, requestId, received, hOld, -, -, -, rfl⟩
  · exact hs i call' assignments hOld hReturned
  · cases hReturned
  · dsimp only at hReturned
    subst hReturned
    have hOk := returned_ok_of_step hStep
    exact hOk
  · rw [Call.deliver_phase] at hReturned
    have hSame : call.deliver received = call := by
      rw [Call.deliver, hReturned]
    rw [hSame]
    exact hs i call assignments hOld hReturned

end Results

end Client

/-- A schedule that a call returns names only items of its request, none of them twice,
on workers below its worker count, whatever the peer sends. -/
theorem returned_valid (connected : Bool) {s : Client}
    (h : Reachable Client.step (Client.new connected) s) {call : Call} (hCall : call ∈ s.calls)
    {assignments : List WorkerAssignment} (hReturned : call.phase = .returned (.ok assignments)) :
    Valid assignments call.items call.workerCount := by
  obtain ⟨i, hi⟩ := List.mem_iff_getElem?.mp hCall
  have hStart : Client.ResultsValid (Client.new connected) := by
    intro i call assignments hCall
    cases hCall
  exact (h.invariant (fun _ _ _ => Client.resultsValid_step) hStart i call assignments hi
    hReturned).2

/-- A call with a transaction and a bundle whose peer assigns the bundle first. -/
def bundleFirst : List Client.Act :=
  .start [.transaction "a" 1 [], .bundle "7" 1 [] 1] 2 :: List.replicate 6 (.call 0 .proceed) ++
    [.lockConnection, .accept (.message (.scheduleResponse 1 [⟨"7", 1, true⟩, ⟨"a", 0, false⟩])),
      .handle, .call 0 .proceed]

/-- It returns what the peer has sent. -/
theorem returned_valid_bundleFirst :
    ∃ s, Reachable Client.step (Client.new true) s ∧ ∃ call ∈ s.calls,
      call.phase = .returned (.ok [⟨"7", 1, true⟩, ⟨"a", 0, false⟩]) ∧
      Valid [⟨"7", 1, true⟩, ⟨"a", 0, false⟩] call.items call.workerCount := by
  obtain ⟨s, hRun, call, hCall, hReturned⟩ : ∃ s,
      run Client.step (Client.new true) bundleFirst = some s ∧ ∃ call ∈ s.calls,
        call.phase = .returned (.ok [⟨"7", 1, true⟩, ⟨"a", 0, false⟩]) :=
    ⟨_, rfl, _, List.mem_cons_self, rfl⟩
  have hReach : Reachable Client.step (Client.new true) s := ⟨bundleFirst, hRun⟩
  exact ⟨s, hReach, call, hCall, hReturned, returned_valid true hReach hCall hReturned⟩

/-- A call with one item that is sent an empty response. -/
def emptyResponse : List Client.Act :=
  .start [.transaction "a" 1 []] 1 :: List.replicate 6 (.call 0 .proceed) ++
    [.lockConnection, .accept (.message (.scheduleResponse 1 [])), .handle, .call 0 .proceed]

theorem reachable_emptyResponse :
    ∃ s, Reachable Client.step (Client.new true) s ∧ s.calls =
      [⟨1, [.transaction "a" 1 []], 1, [[]], .returned (.ok [])⟩] :=
  ⟨_, ⟨emptyResponse, rfl⟩, rfl⟩

/-- The empty schedule loses the item. -/
theorem not_returned_covers :
    ¬ ∀ (connected : Bool) (s : Client), Reachable Client.step (Client.new connected) s →
      ∀ call ∈ s.calls, (call.items.map ExecutionUnitData.id).Nodup →
        ∀ assignments, call.phase = .returned (.ok assignments) →
          Covers assignments call.items call.workerCount := by
  intro hAll
  obtain ⟨s, hReach, hCalls⟩ := reachable_emptyResponse
  have hCall : ⟨1, [.transaction "a" 1 []], 1, [[]], .returned (.ok [])⟩ ∈ s.calls := by
    rw [hCalls]
    exact List.mem_cons_self
  obtain ⟨order, hPerm, hOrder⟩ := hAll true s hReach _ hCall (List.nodup_singleton _) [] rfl
  have hLength := hPerm.length_eq
  rw [hOrder.length_eq] at hLength
  cases hLength

end Blunder.ExternalSchedulerClient
