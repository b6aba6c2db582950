import Blunder.Core.PendingRequests

/-!
# The receive loop of a client

The loop locks the connection, takes the next stream and handles its message. A stream
that does not decode is skipped. A stream that cannot be read, because it was reset or is
longer than 1 MiB, ends the loop like the end of the connection does. The loop of the
external scheduler goes on after both.

* `loopRule_of_step`: what a step does to the loop.
* `hands_of_handling`: handling a response gives it to the call whose request is pending.
* `delivers_iff`: the loop still delivers exactly as long as every stream could be read.
-/

namespace Blunder.ExternalSchedulerClient

open Foundation.HashMap Foundation.Transition

theorem Call.deliver_of_running {call : Call} (hResponses : call.responses = [])
    (hRunning : ∀ result, call.phase ≠ .returned result) (assignments : List WorkerAssignment) :
    call.deliver assignments = { call with responses := [assignments] } := by
  unfold Call.deliver
  split
  · rename_i result hReturned
    exact absurd hReturned (hRunning result)
  · rw [hResponses]
    rfl

/-- The operations that a call has left while it holds the connection. -/
def SendStage.stepsLeft : SendStage → ℕ
  | .opening => 3
  | .writing => 2
  | .finishing => 1

def CallPhase.stepsLeft : CallPhase → ℕ
  | .sending stage => stage.stepsLeft
  | _ => 0

def LoopPhase.rounds : LoopPhase → ℕ
  | .locking => 1
  | .handling _ => 2
  | _ => 0

theorem CallPhase.stepsLeft_le (phase : CallPhase) : phase.stepsLeft ≤ 3 := by
  cases phase with
  | sending stage => cases stage <;> decide
  | _ => exact Nat.zero_le _

namespace Client

variable {s s' t : Client} {act : Act} {requestId : UInt64} {assignments : List WorkerAssignment}

/-! ## Steps of the loop -/

/-- What a step does to the loop. The calls leave it where it is. -/
inductive LoopRule (connected : Bool) : LoopPhase → Act → LoopPhase → Prop
  | start {loop items workerCount} : LoopRule connected loop (.start items workerCount) loop
  | call {loop c act} : LoopRule connected loop (.call c act) loop
  | lock : LoopRule connected .locking .lockConnection (if connected then .accepting else .stopped)
  | close : LoopRule connected .accepting (.accept .closed) .stopped
  | fail : LoopRule connected .accepting (.accept .unreadable) .stopped
  | skip : LoopRule connected .accepting (.accept .undecodable) .locking
  | take {message} : LoopRule connected .accepting (.accept (.message message)) (.handling message)
  | handle {message} : LoopRule connected (.handling message) .handle .locking

theorem CallStep.receiveLoop_eq {c : ℕ} {call : Call} {callAct : CallAct} {phase : CallPhase}
    (h : CallStep s c call callAct phase t) : t.receiveLoop = s.receiveLoop := by
  cases h <;> rfl

theorem loopRule_of_step (h : s.step act = some s') :
    LoopRule s.connected s.receiveLoop act s'.receiveLoop := by
  cases act with
  | start items workerCount =>
    cases h
    exact LoopRule.start
  | call c act =>
    obtain ⟨call, -, hStep⟩ := Option.bind_eq_some_iff.mp h
    obtain ⟨phase, t, hRule, rfl⟩ := callStep_cases hStep
    have hLoop : (t.setPhase c call phase).receiveLoop = s.receiveLoop := hRule.receiveLoop_eq
    rw [hLoop]
    exact LoopRule.call
  | lockConnection =>
    rw [step] at h
    split at h
    · rename_i hLocking
      cases h
      rw [hLocking.1]
      exact LoopRule.lock
    · cases h
  | accept stream =>
    have hAccepting : s.receiveLoop = .accepting := by
      cases stream <;>
      · rw [step] at h
        split at h
        · assumption
        · cases h
    rw [hAccepting]
    cases stream <;>
    · rw [step, if_pos hAccepting] at h
      cases h
      constructor
  | handle =>
    rw [step] at h
    split at h
    · rename_i message hHandling
      cases h
      rw [hHandling]
      exact LoopRule.handle
    · cases h

theorem Step.connected_eq (h : Step s act s') : s'.connected = s.connected := by
  cases h with
  | call hCall hStep => cases hStep <;> rfl
  | _ => rfl

/-- A loop that has ended stays so. -/
theorem stopped_step (hStopped : s.receiveLoop = .stopped) (h : s.step act = some s') :
    s'.receiveLoop = .stopped := by
  have hRule := loopRule_of_step h
  rw [hStopped] at hRule
  generalize s'.receiveLoop = loop at hRule
  cases hRule with
  | start => rfl
  | call => rfl

theorem stopped_run {acts : List Act} (hStopped : s.receiveLoop = .stopped)
    (hRun : run step s acts = some t) : t.receiveLoop = .stopped :=
  run_invariant (I := fun s => s.receiveLoop = .stopped) (fun _ _ _ => stopped_step) hRun hStopped

/-- An unreadable stream ends the loop for good. -/
theorem stopped_of_unreadable {acts : List Act} (hMem : .accept .unreadable ∈ acts)
    (hRun : run step s acts = some t) : t.receiveLoop = .stopped := by
  induction acts generalizing s with
  | nil => cases hMem
  | cons act acts ih =>
    obtain ⟨s', hStep, hRest⟩ := run_cons_eq_some_iff.mp hRun
    rcases List.mem_cons.mp hMem with rfl | hLater
    · have hRule := loopRule_of_step hStep
      generalize s.receiveLoop = loop at hRule
      generalize hLoop : s'.receiveLoop = loop' at hRule
      cases hRule with
      | fail => exact stopped_run hLoop hRest
    · exact ih hLater hRest

/-- The loop goes on. -/
structure Listening (s : Client) : Prop where
  connected : s.connected = true
  notStopped : s.receiveLoop ≠ .stopped

theorem listening_new : Listening (Client.new true) := by
  refine ⟨rfl, ?_⟩
  intro hStopped
  cases hStopped

theorem listening_step (hs : Listening s) (hClosed : act ≠ .accept .closed)
    (hUnreadable : act ≠ .accept .unreadable) (h : s.step act = some s') : Listening s' := by
  refine ⟨(step_cases h).connected_eq.trans hs.connected, ?_⟩
  have hRule := loopRule_of_step h
  have hNotStopped := hs.notStopped
  rw [hs.connected] at hRule
  generalize s.receiveLoop = loop at hRule hNotStopped
  generalize s'.receiveLoop = loop' at hRule
  cases hRule with
  | start => exact hNotStopped
  | call => exact hNotStopped
  | close => exact absurd rfl hClosed
  | fail => exact absurd rfl hUnreadable
  | _ =>
    intro hStopped
    cases hStopped

/-- A message that has been taken stays until it is handled. -/
theorem handling_step {message : SchedulerMessage} (hLoop : s.receiveLoop = .handling message)
    (hAct : act ≠ .handle) (h : s.step act = some s') : s'.receiveLoop = .handling message := by
  have hRule := loopRule_of_step h
  rw [hLoop] at hRule
  generalize s'.receiveLoop = loop at hRule
  cases hRule with
  | start => rfl
  | call => rfl
  | handle => exact absurd rfl hAct

/-! ## The way to the next stream -/

/-- The connection is held by a call that is sending. -/
def HeldBySender (s : Client) : Prop :=
  ∀ c, s.connectionGuard = some c → ∃ call stage, s.calls[c]? = some call ∧
    call.phase = .sending stage

/-- A call that holds the connection has taken it, or goes on sending. -/
theorem CallStep.guard_cases {c holder : ℕ} {call : Call} {callAct : CallAct} {phase : CallPhase}
    (h : CallStep s c call callAct phase t) (hGuard : t.connectionGuard = some holder) :
    (holder = c ∧ ∃ stage, phase = .sending stage) ∨ (s.connectionGuard = some holder ∧
      ∀ stage, call.phase = .sending stage → ∃ stage', phase = .sending stage') := by
  cases h with
  | lock =>
    cases hGuard
    exact Or.inl ⟨rfl, _, rfl⟩
  | openStream => exact Or.inr ⟨hGuard, fun _ _ => ⟨_, rfl⟩⟩
  | write => exact Or.inr ⟨hGuard, fun _ _ => ⟨_, rfl⟩⟩
  | finish => cases hGuard
  | failToSend => cases hGuard
  | _ hPhase =>
    refine Or.inr ⟨hGuard, ?_⟩
    intro stage hSending
    rw [hPhase] at hSending
    cases hSending

theorem heldBySender_step (hs : HeldBySender s) (h : s.step act = some s') : HeldBySender s' := by
  intro holder hGuard
  cases step_cases h with
  | start =>
    obtain ⟨call, stage, hCall, hSending⟩ := hs holder hGuard
    have hLt := (List.getElem?_eq_some_iff.mp hCall).1
    exact ⟨call, stage, (List.getElem?_append_left hLt).trans hCall, hSending⟩
  | @call c call callAct phase t hCall hStep =>
    have hGuard' : t.connectionGuard = some holder := hGuard
    rw [setPhase, hStep.calls_eq]
    by_cases hc : c = holder
    · subst hc
      have hLt := (List.getElem?_eq_some_iff.mp hCall).1
      have hSending : ∃ stage, phase = .sending stage := by
        rcases hStep.guard_cases hGuard' with ⟨-, hTaken⟩ | ⟨hOld, hGoesOn⟩
        · exact hTaken
        · obtain ⟨call₀, stage, hCall₀, hSending⟩ := hs c hOld
          rw [hCall] at hCall₀
          cases hCall₀
          exact hGoesOn stage hSending
      obtain ⟨stage, hSending⟩ := hSending
      exact ⟨_, stage, List.getElem?_set_self hLt, hSending⟩
    · rcases hStep.guard_cases hGuard' with ⟨hEq, -⟩ | ⟨hOld, -⟩
      · exact absurd hEq.symm hc
      · obtain ⟨other, stage, hOther, hSending⟩ := hs holder hOld
        exact ⟨other, stage, (List.getElem?_set_ne hc).trans hOther, hSending⟩
  | listen => exact hs holder hGuard
  | @deliver requestId assignments c hLoop hPending =>
    obtain ⟨call, stage, hCall, hSending⟩ := hs holder hGuard
    rw [List.getElem?_modify, hCall]
    by_cases hc : c = holder
    · refine ⟨call.deliver assignments, stage, ?_, ?_⟩
      · simp [hc]
      · rw [Call.deliver_phase, hSending]
    · refine ⟨call, stage, ?_, hSending⟩
      simp [hc]

/-- A step of the loop other than taking a stream, or of a call on its way. -/
def Act.isPrepare : Act → Bool
  | .lockConnection => true
  | .handle => true
  | .call _ .proceed => true
  | _ => false

/-- How far the loop is from the next stream. -/
def distance (s : Client) : ℕ :=
  4 * s.receiveLoop.rounds + match s.connectionGuard.bind fun c => s.calls[c]? with
    | none => 0
    | some call => call.phase.stepsLeft

theorem distance_bounds (s : Client) : 4 * s.receiveLoop.rounds ≤ s.distance ∧
    s.distance ≤ 4 * s.receiveLoop.rounds + 3 := by
  unfold distance
  split
  · omega
  · rename_i call _
    have hLe := CallPhase.stepsLeft_le call.phase
    omega

theorem distance_of_held {c : ℕ} {call : Call} (hGuard : s.connectionGuard = some c)
    (hCall : s.calls[c]? = some call) :
    s.distance = 4 * s.receiveLoop.rounds + call.phase.stepsLeft := by
  rw [distance, hGuard, Option.bind_some, hCall]

/-- The holder of the connection goes on, or gives it back after its last operation. -/
theorem exists_step_of_held {c : ℕ} {call : Call} {stage : SendStage}
    (hGuard : s.connectionGuard = some c) (hCall : s.calls[c]? = some call)
    (hSending : call.phase = .sending stage) :
    ∃ s', s.step (.call c .proceed) = some s' ∧ s'.distance < s.distance := by
  have hLt := (List.getElem?_eq_some_iff.mp hCall).1
  have hStep : s.step (.call c .proceed) = s.callStep c call .proceed := by
    rw [step, hCall]
    rfl
  rw [hStep, distance_of_held hGuard hCall]
  unfold callStep
  rw [hSending]
  cases stage with
  | opening =>
    refine ⟨_, rfl, ?_⟩
    have hAfter : (s.setPhase c call (.sending .writing)).distance = _ :=
      distance_of_held hGuard (List.getElem?_set_self hLt)
    rw [hAfter]
    exact Nat.lt_succ_self _
  | writing =>
    refine ⟨_, rfl, ?_⟩
    have hAfter : distance { s.setPhase c call (.sending .finishing) with
        sent := s.sent ++ [call.request] } = _ :=
      distance_of_held hGuard (List.getElem?_set_self hLt)
    rw [hAfter]
    exact Nat.lt_succ_self _
  | finishing => exact ⟨_, rfl, Nat.lt_succ_self _⟩

/-- The loop gets to the next stream, whoever holds the connection. -/
theorem exists_accepting (hListening : Listening s) (hHeld : HeldBySender s) :
    ∃ acts t, run step s acts = some t ∧ (∀ act ∈ acts, act.isPrepare) ∧
      t.receiveLoop = .accepting := by
  have hProgress : ∀ s : Client, Listening s ∧ HeldBySender s → s.receiveLoop = .accepting ∨
      ∃ act s', act.isPrepare ∧ s.step act = some s' ∧ (Listening s' ∧ HeldBySender s') ∧
        s'.distance < s.distance := by
    rintro s ⟨hListening, hHeld⟩
    have hNext : ∀ act s', act.isPrepare → s.step act = some s' → s'.distance < s.distance →
        ∃ act s', act.isPrepare ∧ s.step act = some s' ∧ (Listening s' ∧ HeldBySender s') ∧
          s'.distance < s.distance := by
      intro act s' hPrepare hStep hLt
      refine ⟨act, s', hPrepare, hStep, ⟨?_, heldBySender_step hHeld hStep⟩, hLt⟩
      apply listening_step hListening _ _ hStep <;>
      · rintro rfl
        cases hPrepare
    cases hLoop : s.receiveLoop with
    | accepting => exact Or.inl rfl
    | stopped => exact absurd hLoop hListening.notStopped
    | handling message =>
      right
      obtain ⟨s', hStep, hLoop'⟩ : ∃ s', s.step .handle = some s' ∧ s'.receiveLoop = .locking := by
        rw [step, hLoop]
        exact ⟨_, rfl, rfl⟩
      refine hNext .handle s' rfl hStep ?_
      have hBefore := (distance_bounds s).1
      have hAfter := (distance_bounds s').2
      rw [hLoop] at hBefore
      rw [hLoop'] at hAfter
      simp only [LoopPhase.rounds] at hBefore hAfter
      omega
    | locking =>
      right
      cases hGuard : s.connectionGuard with
      | none =>
        refine hNext .lockConnection { s with receiveLoop := .accepting } rfl ?_ ?_
        · rw [step, if_pos ⟨hLoop, hGuard⟩, if_pos hListening.connected]
        · simp [distance, hGuard, hLoop, LoopPhase.rounds]
      | some c =>
        obtain ⟨call, stage, hCall, hSending⟩ := hHeld c hGuard
        obtain ⟨s', hStep, hLt⟩ := exists_step_of_held hGuard hCall hSending
        exact hNext (.call c .proceed) s' rfl hStep hLt
  obtain ⟨acts, t, hRun, hPrepare, -, hAccepting⟩ :=
    exists_run_of_progress hProgress ⟨hListening, hHeld⟩
  exact ⟨acts, t, hRun, hPrepare, hAccepting⟩

/-! ## Delivery -/

/-- Handling the response gives it to the call whose request is pending: it is the first
that the call is sent, the request is no longer pending, and a call that waits returns
with it. -/
def Hands (s : Client) (requestId : UInt64) (assignments : List WorkerAssignment) : Prop :=
  ∃ s', s.step .handle = some s' ∧ ∀ c, s.pendingRequests.lookup requestId = some c →
    requestId ∉ s'.pendingRequests ∧ ∃ call, s.calls[c]? = some call ∧
      call.requestId = requestId ∧ ((∀ result, call.phase ≠ .returned result) →
        s'.calls[c]? = some { call with responses := [assignments] } ∧
        (call.phase = .waiting → ∃ t, s'.step (.call c .proceed) = some t ∧
          t.calls[c]? = some { call with
            responses := [assignments]
            phase := .returned ((validateAssignments assignments call.items call.workerCount).map
              fun _ => assignments) }))

/-- The loop gets to the next stream without a new call and without a failure, and if
this is a response, hands it over whatever the calls do in between. -/
def Delivers (s : Client) : Prop :=
  ∀ requestId assignments, ∃ acts t u, run step s acts = some t ∧ (∀ act ∈ acts, act.isPrepare) ∧
    t.step (.accept (.message (.scheduleResponse requestId assignments))) = some u ∧
    ∀ acts' v, run step u acts' = some v → .handle ∉ acts' → Hands v requestId assignments

/-- A waiting call returns with the response it is sent. -/
theorem exists_step_of_waiting {c : ℕ} {call : Call}
    (hCall : s.calls[c]? = some { call with responses := [assignments] })
    (hWaiting : call.phase = .waiting) :
    ∃ t, s.step (.call c .proceed) = some t ∧ t.calls[c]? = some { call with
      responses := [assignments]
      phase := .returned ((validateAssignments assignments call.items call.workerCount).map
        fun _ => assignments) } := by
  have hLt := (List.getElem?_eq_some_iff.mp hCall).1
  have hStep : s.step (.call c .proceed) =
      s.callStep c { call with responses := [assignments] } .proceed := by
    rw [step, hCall]
    rfl
  rw [hStep]
  unfold callStep
  rw [hWaiting]
  exact ⟨_, rfl, List.getElem?_set_self hLt⟩

theorem hands_of_handling (hs : Entries s)
    (hLoop : s.receiveLoop = .handling (.scheduleResponse requestId assignments)) :
    Hands s requestId assignments := by
  refine ⟨{ s.handleMessage (.scheduleResponse requestId assignments) with
    receiveLoop := .locking }, ?_, ?_⟩
  · rw [step, hLoop]
  · intro c hPending
    obtain ⟨call, hCall, hId, hResponses, -⟩ := hs.entry requestId c hPending
    rw [handleMessage, hPending]
    refine ⟨Finmap.notMem_erase_self, call, hCall, hId, fun hRunning => ?_⟩
    have hCall' : (s.calls.modify c (Call.deliver assignments))[c]? =
        some { call with responses := [assignments] } := by
      rw [List.getElem?_modify_eq, hCall]
      exact congrArg some (Call.deliver_of_running hResponses hRunning assignments)
    exact ⟨hCall', fun hWaiting => exists_step_of_waiting hCall' hWaiting⟩

theorem delivers_of_listening (hs : Entries s) (hListening : Listening s)
    (hHeld : HeldBySender s) : Delivers s := by
  intro requestId assignments
  obtain ⟨acts, t, hRun, hPrepare, hAccepting⟩ := exists_accepting hListening hHeld
  have hTake : t.step (.accept (.message (.scheduleResponse requestId assignments))) =
      some { t with receiveLoop := .handling (.scheduleResponse requestId assignments) } := by
    rw [step, if_pos hAccepting]
  refine ⟨acts, t, _, hRun, hPrepare, hTake, ?_⟩
  intro acts' v hRun' hUnhandled
  have hEntries : Entries t := run_invariant (fun _ _ _ => entries_step) hRun hs
  have hInv : Entries v ∧
      v.receiveLoop = .handling (.scheduleResponse requestId assignments) := by
    refine invariant_along (P := fun _ act => act ≠ .handle) (I := fun v => Entries v ∧
      v.receiveLoop = .handling (.scheduleResponse requestId assignments)) ?_ hRun' ?_
      ⟨entries_step hEntries hTake, rfl⟩
    · rintro v act v' ⟨hEntries, hHandling⟩ hAct hStep
      exact ⟨entries_step hEntries hStep, handling_step hHandling hAct hStep⟩
    · apply Along.of_forall
      rintro act hAct rfl
      exact hUnhandled hAct
  exact hands_of_handling hInv.1 hInv.2

theorem not_delivers_of_stopped (hStopped : s.receiveLoop = .stopped) : ¬ Delivers s := by
  intro hDelivers
  obtain ⟨acts, t, u, hRun, -, hTake, -⟩ := hDelivers 0 []
  have hNot : t.receiveLoop ≠ .accepting := by
    intro hAccepting
    cases (stopped_run hStopped hRun).symm.trans hAccepting
  rw [step, if_neg hNot] at hTake
  cases hTake

end Client

/-! ## Main result -/

/-- On a connection that stays open the loop still delivers exactly as long as every
stream could be read. -/
theorem delivers_iff {acts : List Client.Act} {s : Client}
    (hRun : run Client.step (Client.new true) acts = some s) (hOpen : .accept .closed ∉ acts) :
    s.Delivers ↔ .accept .unreadable ∉ acts := by
  constructor
  · intro hDelivers hMem
    exact Client.not_delivers_of_stopped (Client.stopped_of_unreadable hMem hRun) hDelivers
  · intro hReadable
    have hEntries : Client.Entries s :=
      run_invariant (fun _ _ _ => Client.entries_step) hRun (Client.entries_new true)
    have hHeld : Client.HeldBySender s := by
      refine run_invariant (fun _ _ _ => Client.heldBySender_step) hRun ?_
      intro c hGuard
      cases hGuard
    have hListening : Client.Listening s := by
      refine invariant_along (P := fun _ act => act ≠ .accept .closed ∧ act ≠ .accept .unreadable)
        ?_ hRun ?_ Client.listening_new
      · rintro s act s' hListening ⟨hClosed, hUnreadable⟩ hStep
        exact Client.listening_step hListening hClosed hUnreadable hStep
      · apply Along.of_forall
        intro act hAct
        refine ⟨?_, ?_⟩
        · rintro rfl
          exact hOpen hAct
        · rintro rfl
          exact hReadable hAct
    exact Client.delivers_of_listening hEntries hListening hHeld

/-- A call waits for its response, and the loop takes a stream. -/
def waitingWith (stream : IncomingStream) : List Client.Act :=
  .start [.transaction "a" 1 []] 1 :: List.replicate 6 (.call 0 .proceed) ++
    [.lockConnection, .accept stream]

/-- After a stream that does not decode the loop still delivers. -/
theorem delivers_iff_undecodable :
    ∃ s, run Client.step (Client.new true) (waitingWith .undecodable) = some s ∧
      (s.Delivers ↔ .accept .unreadable ∉ waitingWith .undecodable) := by
  refine ⟨_, rfl, delivers_iff rfl ?_⟩
  simp [waitingWith]

/-- After a stream that was reset it does not, while the request is pending. -/
theorem not_delivers :
    ¬ ∀ (acts : List Client.Act) (s : Client),
      run Client.step (Client.new true) acts = some s → .accept .closed ∉ acts →
        s.Delivers := by
  intro hAll
  obtain ⟨s, hRun, hStopped⟩ : ∃ s,
      run Client.step (Client.new true) (waitingWith .unreadable) = some s ∧
        s.receiveLoop = .stopped := ⟨_, rfl, rfl⟩
  refine Client.not_delivers_of_stopped hStopped (hAll _ s hRun ?_)
  simp [waitingWith]

end Blunder.ExternalSchedulerClient
