import Blunder.Core.PendingRequests
import Blunder.SchedulerExternal.RoundRobin

/-!
# A client and its server

A session is a client, the state of the server for its connection and every answer that
the server has ever sent. The server may serve any request that was ever sent, and the
client may be given any answer, each any number of times and at any time: messages are
lost, delayed, reordered and duplicated. Streams that fail or cannot be decoded arrive
whenever they like.

* `SchedulerSession.step_inv`: requests, answers, the channels of the calls and their results
  belong together.
* `SchedulerSession.reachable_correct`: below `2 ^ 64` calls every call gets its own schedule or
  none.
-/

namespace Blunder

open Foundation.HashMap Foundation.Transition ExternalSchedulerClient

/-! ## The server -/

/-- The handling of one message in `handle_connection`: the answer that it sends. -/
def handleConnection (scheduler : RoundRobinScheduler) :
    EngineMessage → RoundRobinScheduler × Option SchedulerMessage
  | .scheduleRequest requestId items workerCount =>
    let (scheduler, assignments) := scheduler.schedule items workerCount
    (scheduler, some (.scheduleResponse requestId assignments))
  | .workerCompleted .. => (scheduler, none)
  | .heartbeat timestampUs => (scheduler, some (.heartbeatAck timestampUs))

structure SchedulerSession where
  client : Client
  scheduler : RoundRobinScheduler
  responses : List SchedulerMessage

namespace SchedulerSession

/-- A connection without requests. -/
def new : SchedulerSession := ⟨Client.new true, RoundRobinScheduler.new, []⟩

inductive Act
  | client (act : Client.Act)
  | serve (message : EngineMessage)

/-- The client takes its messages from the answers. -/
def Carries (s : SchedulerSession) : Client.Act → Bool
  | .accept (.message message) => decide (message ∈ s.responses)
  | _ => true

def step (s : SchedulerSession) : Act → Option SchedulerSession
  | .client act =>
    if s.Carries act then (s.client.step act).map fun client => { s with client } else none
  | .serve message =>
    if message ∈ s.client.sent then
      let (scheduler, response) := handleConnection s.scheduler message
      some { s with scheduler, responses := s.responses ++ response.toList }
    else none

/-! ## What belongs together -/

structure Inv (s : SchedulerSession) : Prop where
  entries : s.client.Entries
  results : s.client.ResultsValid
  counter : s.client.requestCounter = UInt64.ofNat s.client.calls.length
  numbered : ∀ (i : ℕ) (call : Call), s.client.calls[i]? = some call →
    call.requestId = UInt64.ofNat (i + 1)
  sent : ∀ message ∈ s.client.sent, ∃ call ∈ s.client.calls, message = call.request
  answered : ∀ requestId assignments, .scheduleResponse requestId assignments ∈ s.responses →
    ∃ call ∈ s.client.calls, call.requestId = requestId ∧
      ∃ scheduler : RoundRobinScheduler,
        (scheduler.schedule call.items call.workerCount).2 = assignments
  handling : ∀ message, s.client.receiveLoop = .handling message → message ∈ s.responses
  delivered : ∀ call ∈ s.client.calls, ∀ assignments ∈ call.responses,
    .scheduleResponse call.requestId assignments ∈ s.responses

theorem new_inv : Inv new where
  entries := Client.entries_new true
  results i call assignments h := by cases h
  counter := rfl
  numbered i call h := by cases h
  sent message h := by cases h
  answered requestId assignments h := by cases h
  handling message h := by cases h
  delivered call h := by cases h

section Steps

variable {s s' : SchedulerSession} {act : Act}

/-- A step of the client takes its messages from the answers. -/
theorem step_inv_client {clientAct : Client.Act} {client : Client} (hs : Inv s)
    (hCarries : s.Carries clientAct = true) (h : s.client.step clientAct = some client) :
    Inv { s with client } := by
  have hStep := Client.step_cases h
  obtain ⟨hCounter, hNumbered⟩ := hStep.numbered hs.counter hs.numbered
  refine ⟨Client.entries_step hs.entries h, Client.resultsValid_step hs.results h, hCounter,
    hNumbered, ?_, ?_, ?_, ?_⟩
  · intro message hSent
    have hOld : ∃ call ∈ s.client.calls, message = call.request := by
      rcases hStep.sent_cases hSent with hOld | hNew
      · exact hs.sent message hOld
      · exact hNew
    obtain ⟨call, hCall, rfl⟩ := hOld
    obtain ⟨call', hCall', hExtends⟩ := hStep.extends_mem hCall
    exact ⟨call', hCall', hExtends.request.symm⟩
  · intro requestId assignments hAnswer
    obtain ⟨call, hCall, hId, scheduler, hSchedule⟩ := hs.answered requestId assignments hAnswer
    obtain ⟨call', hCall', hExtends⟩ := hStep.extends_mem hCall
    refine ⟨call', hCall', hExtends.requestId.trans hId, scheduler, ?_⟩
    rw [hExtends.items, hExtends.workerCount]
    exact hSchedule
  · intro message hLoop
    rcases hStep.handling_cases hLoop with hOld | rfl
    · exact hs.handling message hOld
    · exact of_decide_eq_true hCarries
  · intro call' hMem assignments hReceived
    obtain ⟨i, hCall'⟩ := List.mem_iff_getElem?.mp hMem
    rcases hStep.call_cases hCall' with hOld | ⟨items, workerCount, -, rfl⟩ |
        ⟨call, callAct, phase, t, hOld, -, -, -, rfl⟩ |
        ⟨call, requestId, answer, hOld, hLoop, hLookup, -, rfl⟩
    · exact hs.delivered call' (List.mem_of_getElem? hOld) assignments hReceived
    · cases hReceived
    · exact hs.delivered call (List.mem_of_getElem? hOld) assignments hReceived
    · rw [(Call.extends_deliver answer call).requestId]
      rcases Call.mem_responses_deliver hReceived with hBefore | rfl
      · exact hs.delivered call (List.mem_of_getElem? hOld) assignments hBefore
      · -- the entry of the answered request is that of its own call
        obtain ⟨call₀, hCall₀, rfl, -⟩ := hs.entries.entry requestId i hLookup
        rw [hOld] at hCall₀
        cases hCall₀
        exact hs.handling _ hLoop

/-- The server answers a request with a schedule for its items. -/
theorem step_inv_serve {message : EngineMessage} (hs : Inv s) (hSent : message ∈ s.client.sent) :
    Inv { s with
      scheduler := (handleConnection s.scheduler message).1
      responses := s.responses ++ (handleConnection s.scheduler message).2.toList } := by
  refine ⟨hs.entries, hs.results, hs.counter, hs.numbered, hs.sent, ?_, ?_, ?_⟩
  · intro requestId assignments hAnswer
    rcases List.mem_append.mp hAnswer with hOld | hNew
    · exact hs.answered requestId assignments hOld
    · obtain ⟨call, hCall, rfl⟩ := hs.sent message hSent
      rw [Call.request, handleConnection, Option.mem_toList] at hNew
      cases hNew
      exact ⟨call, hCall, rfl, s.scheduler, rfl⟩
  · intro m hLoop
    exact List.mem_append_left _ (hs.handling m hLoop)
  · intro call hCall assignments hReceived
    exact List.mem_append_left _ (hs.delivered call hCall assignments hReceived)

theorem step_inv (hs : Inv s) (h : s.step act = some s') : Inv s' := by
  cases act with
  | client clientAct =>
    rw [step] at h
    split at h
    · rename_i hCarries
      obtain ⟨client, hClient, rfl⟩ := Option.map_eq_some_iff.mp h
      exact step_inv_client hs hCarries hClient
    · cases h
  | serve message =>
    rw [step] at h
    split at h
    · rename_i hSent
      cases h
      exact step_inv_serve hs hSent
    · cases h

/-- Steps of the session are steps of its client, or leave the client as it is. -/
theorem client_step (h : s.step act = some s') :
    (∃ clientAct, act = .client clientAct ∧ Client.Step s.client clientAct s'.client) ∨
      s'.client = s.client := by
  cases act with
  | client clientAct =>
    rw [step] at h
    split at h
    · obtain ⟨client, hClient, rfl⟩ := Option.map_eq_some_iff.mp h
      exact Or.inl ⟨clientAct, rfl, Client.step_cases hClient⟩
    · cases h
  | serve message =>
    rw [step] at h
    split at h
    · cases h
      exact Or.inr rfl
    · cases h

theorem extends_of_reachable {t : SchedulerSession} {i : ℕ} {call : Call}
    (h : Reachable step s t) (hCall : s.client.calls[i]? = some call) :
    ∃ call', t.client.calls[i]? = some call' ∧ call.Extends call' := by
  have hInv := h.invariant (I := fun u => ∃ call', u.client.calls[i]? = some call' ∧
    call.Extends call') ?_ ⟨call, hCall, Call.Extends.refl call⟩
  · exact hInv
  · rintro u act u' ⟨call', hCall', hExtends⟩ hStep
    rcases client_step hStep with ⟨clientAct, -, hClient⟩ | hSame
    · obtain ⟨call'', hCall'', hExtends'⟩ := hClient.extends hCall'
      exact ⟨call'', hCall'', hExtends.trans hExtends'⟩
    · rw [hSame]
      exact ⟨call', hCall', hExtends⟩

/-- A call is answered by the handling of a response with its id, and once. -/
theorem answered_of_step {i : ℕ} {call call' : Call} (hs : Inv s) (h : s.step act = some s')
    (hCall : s.client.calls[i]? = some call) (hCall' : s'.client.calls[i]? = some call')
    (hChanged : call'.responses ≠ call.responses) :
    call.responses = [] ∧ ∃ assignments,
      s.client.receiveLoop = .handling (.scheduleResponse call.requestId assignments) := by
  rcases client_step h with ⟨clientAct, -, hClient⟩ | hSame
  · rcases hClient.call_cases hCall' with hOld | ⟨items, workerCount, rfl, -⟩ |
        ⟨call₀, callAct, phase, t, hOld, -, -, -, rfl⟩ |
        ⟨call₀, requestId, assignments, hOld, hLoop, hLookup, -, rfl⟩
    · rw [hCall] at hOld
      cases hOld
      exact absurd rfl hChanged
    · rw [List.getElem?_length] at hCall
      cases hCall
    · rw [hCall] at hOld
      cases hOld
      exact absurd rfl hChanged
    · obtain ⟨call₁, hCall₁, rfl, hResponses, -⟩ := hs.entries.entry requestId i hLookup
      rw [hCall] at hCall₁
      cases hCall₁
      exact ⟨hResponses, assignments, hLoop⟩
  · rw [hSame, hCall] at hCall'
    cases hCall'
    exact absurd rfl hChanged

end Steps

/-! ## Main result -/

/-- What holds of the calls of a session.
* `distinct`: no two calls have the same request id.
* `answered`: a response is given only to the call with its id, and only when that call
  has had none; so a response completes at most one call, and once.
* `result`: a schedule that a call returns was carried by a response with its id and is
  one that the server makes for the items and the worker count of the call.
* `inOrder`: such a schedule has one assignment for each item, in the order of the items.
* `expired`: once its timeout has fired a call ends in the timeout error.
* `late`: handling a response to such a call changes no other call. -/
structure Correct (s : SchedulerSession) : Prop where
  distinct : ∀ (i j : ℕ) (call call' : Call), s.client.calls[i]? = some call →
    s.client.calls[j]? = some call' → call.requestId = call'.requestId → i = j
  answered : ∀ (act : Act) (s' : SchedulerSession), s.step act = some s' →
    ∀ (i : ℕ) (call call' : Call), s.client.calls[i]? = some call →
      s'.client.calls[i]? = some call' → call'.responses ≠ call.responses →
      call.responses = [] ∧ ∃ assignments,
        s.client.receiveLoop = .handling (.scheduleResponse call.requestId assignments)
  result : ∀ call ∈ s.client.calls, ∀ assignments, call.phase = .returned (.ok assignments) →
    .scheduleResponse call.requestId assignments ∈ s.responses ∧
      ∃ scheduler : RoundRobinScheduler,
        (scheduler.schedule call.items call.workerCount).2 = assignments
  inOrder : ∀ call ∈ s.client.calls, ∀ assignments, call.phase = .returned (.ok assignments) →
    1 ≤ call.workerCount → List.Forall₂ (fun item a => ∃ w < call.workerCount,
      a = ExecutionUnitData.assignment item w) call.items assignments
  expired : ∀ (i : ℕ) (call : Call), s.client.calls[i]? = some call → call.Expired →
    ∀ t, Reachable step s t → ∃ call', t.client.calls[i]? = some call' ∧ call'.Expired
  late : ∀ (i : ℕ) (call : Call) (assignments : List WorkerAssignment) (s' : SchedulerSession),
    s.client.calls[i]? = some call → call.Expired →
    s.client.receiveLoop = .handling (.scheduleResponse call.requestId assignments) →
    s.step (.client .handle) = some s' →
    ∀ j, j ≠ i → s'.client.calls[j]? = s.client.calls[j]?

section Main

variable {s : SchedulerSession}

theorem distinct_of_inv (hs : Inv s) (hCalls : s.client.calls.length < UInt64.size) {i j : ℕ}
    {call call' : Call} (hCall : s.client.calls[i]? = some call)
    (hCall' : s.client.calls[j]? = some call') (hId : call.requestId = call'.requestId) :
    i = j := by
  have hi := (List.getElem?_eq_some_iff.mp hCall).1
  have hj := (List.getElem?_eq_some_iff.mp hCall').1
  rw [hs.numbered i call hCall, hs.numbered j call' hCall'] at hId
  have hNat := congrArg UInt64.toNat hId
  rw [UInt64.toNat_ofNat_of_lt' (by omega), UInt64.toNat_ofNat_of_lt' (by omega)] at hNat
  omega

/-- A schedule that a call returns is the server's for that call. -/
theorem result_of_inv (hs : Inv s) (hCalls : s.client.calls.length < UInt64.size) {call : Call}
    (hCall : call ∈ s.client.calls) {assignments : List WorkerAssignment}
    (hReturned : call.phase = .returned (.ok assignments)) :
    .scheduleResponse call.requestId assignments ∈ s.responses ∧
      ∃ scheduler : RoundRobinScheduler,
        (scheduler.schedule call.items call.workerCount).2 = assignments := by
  obtain ⟨i, hi⟩ := List.mem_iff_getElem?.mp hCall
  have hReceived := (hs.results i call assignments hi hReturned).1
  have hAnswer := hs.delivered call hCall assignments hReceived
  obtain ⟨call', hCall', hId, scheduler, hSchedule⟩ := hs.answered _ _ hAnswer
  obtain ⟨j, hj⟩ := List.mem_iff_getElem?.mp hCall'
  have hij := distinct_of_inv hs hCalls hj hi hId
  rw [hij, hi] at hj
  cases hj
  exact ⟨hAnswer, scheduler, hSchedule⟩

/-- Below `2 ^ 64` calls every state of a session is correct. -/
theorem reachable_correct (h : Reachable step new s)
    (hCalls : s.client.calls.length < UInt64.size) : Correct s := by
  have hs : Inv s := h.invariant (fun _ _ _ hs hStep => step_inv hs hStep) new_inv
  constructor
  · intro i j call call' hCall hCall' hId
    exact distinct_of_inv hs hCalls hCall hCall' hId
  · intro act s' hStep i call call' hCall hCall' hChanged
    exact answered_of_step hs hStep hCall hCall' hChanged
  · intro call hCall assignments hReturned
    exact result_of_inv hs hCalls hCall hReturned
  · intro call hCall assignments hReturned hCount
    obtain ⟨-, scheduler, rfl⟩ := result_of_inv hs hCalls hCall hReturned
    exact scheduler.schedule_forall₂ call.items hCount
  · intro i call hCall hExpired t hReach
    obtain ⟨call', hCall', hExtends⟩ := extends_of_reachable hReach hCall
    exact ⟨call', hCall', hExtends.expired hExpired⟩
  · intro i call assignments s' hCall _ hLoop hStep j hji
    rw [step] at hStep
    obtain ⟨client, hClient, rfl⟩ := Option.map_eq_some_iff.mp hStep
    cases Client.step_cases hClient with
    | listen => rfl
    | @deliver requestId received c hHandled hLookup =>
      rw [hLoop] at hHandled
      cases hHandled
      obtain ⟨call₀, hCall₀, hId, -⟩ := hs.entries.entry _ c hLookup
      have hic := distinct_of_inv hs hCalls hCall₀ hCall hId
      rw [List.getElem?_modify_ne]
      rw [hic]
      exact hji.symm

end Main

/-- A transaction and a bundle with one account, for two workers. -/
def sharingItems : List ExecutionUnitData :=
  let account : AccountKey := List.Vector.replicate 32 7
  [.transaction "a" 1 [account], .bundle "7" 1 [account] 1]

/-- Two calls at the same time. The second request is served first, and its answer arrives first
and once more at the end. -/
def crossedAnswers : List Act :=
  let items : List ExecutionUnitData := [.transaction "b" 1 []]
  let answerA := SchedulerMessage.scheduleResponse 1 [⟨"a", 0, false⟩, ⟨"7", 1, true⟩]
  let answerB := SchedulerMessage.scheduleResponse 2 [⟨"b", 0, false⟩]
  let receive message : List Client.Act := [.lockConnection, .accept (.message message), .handle]
  List.flatten [
    [.client (.start sharingItems 2), .client (.start items 1)],
    List.replicate 6 (.client (.call 1 .proceed)), List.replicate 6 (.client (.call 0 .proceed)),
    [.serve (.scheduleRequest 2 items 1), .serve (.scheduleRequest 1 sharingItems 2)],
    (receive answerB).map .client, (receive answerA).map .client, (receive answerB).map .client,
    [.client (.call 0 .proceed), .client (.call 1 .proceed)]]

/-- Each call gets its own answer. -/
theorem reachable_correct_crossedAnswers :
    ∃ s, Reachable step new s ∧ s.client.calls.map Call.phase =
      [.returned (.ok [⟨"a", 0, false⟩, ⟨"7", 1, true⟩]), .returned (.ok [⟨"b", 0, false⟩])] ∧
      Correct s := by
  have hSeen : (run step new crossedAnswers).map (fun s => s.client.calls.map Call.phase) =
      some [.returned (.ok [⟨"a", 0, false⟩, ⟨"7", 1, true⟩]),
        .returned (.ok [⟨"b", 0, false⟩])] := by
    decide +kernel
  obtain ⟨s, hRun, hPhases⟩ := Option.map_eq_some_iff.mp hSeen
  have hLength := congrArg List.length hPhases
  rw [List.length_map] at hLength
  have hCount : s.client.calls.length < UInt64.size := by
    rw [hLength]
    decide
  exact ⟨s, ⟨crossedAnswers, hRun⟩, hPhases, reachable_correct ⟨crossedAnswers, hRun⟩ hCount⟩

end SchedulerSession

end Blunder
