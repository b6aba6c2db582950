import Blunder.Core.Client

/-!
# The pending requests of a client

A call registers a channel under its request id before it sends the request. The entry
is removed by the receive loop when the response arrives and by the call itself when it
times out. A call that fails to send returns without removing it.

* `entries_step`: an entry belongs to a call that has registered and has not been
  answered.
* `pending_not_returned`: on every run without a call that fails to send while its entry
  is there, the pending requests are those of calls in progress.
-/

namespace Blunder.ExternalSchedulerClient

open Foundation.HashMap Foundation.Transition

/-- The call has not registered yet. -/
def CallPhase.isUnregistered : CallPhase → Bool
  | .numbered => true
  | .serialized => true
  | _ => false

namespace Client

variable {s s' : Client} {act : Act}

/-! ## Entries -/

/-- An entry belongs to a call that has registered and has not been answered. A call is
not answered before it registers. -/
structure Entries (s : Client) : Prop where
  entry : ∀ (requestId : UInt64) (i : ℕ), s.pendingRequests.lookup requestId = some i →
    ∃ call, s.calls[i]? = some call ∧ call.requestId = requestId ∧ call.responses = [] ∧
      call.phase.isUnregistered = false
  fresh : ∀ (i : ℕ) (call : Call), s.calls[i]? = some call →
    call.phase.isUnregistered = true → call.responses = []

theorem entries_new (connected : Bool) : Entries (Client.new connected) where
  entry requestId i h := by
    rw [Client.new, Finmap.lookup_empty] at h
    cases h
  fresh i call h := by cases h

theorem isUnregistered_of_callStep {c : ℕ} {call : Call} {callAct : CallAct} {phase : CallPhase}
    {t : Client} (hStep : CallStep s c call callAct phase t)
    (hPhase' : phase.isUnregistered = true) : call.phase.isUnregistered = true := by
  cases hStep with
  | serialize hPhase =>
    rw [hPhase]
    rfl
  | _ => cases hPhase'

theorem entries_step (hs : Entries s) (h : s.step act = some s') : Entries s' := by
  have hStep := step_cases h
  constructor
  · intro requestId i hPending
    rcases hStep.pending_cases hPending with hOld | ⟨call, hCall, rfl, hPhase, hCalls⟩
    · obtain ⟨call, hCall, rfl, hResponses, hRegistered⟩ := hs.entry requestId i hOld
      obtain ⟨call', hCall', hExtends⟩ := hStep.extends hCall
      refine ⟨call', hCall', hExtends.requestId, ?_⟩
      rcases hStep.call_cases hCall' with hSame | ⟨items, workerCount, rfl, -⟩ |
          ⟨call₀, callAct, phase, t, hCall₀, -, hRule, -, rfl⟩ |
          ⟨call₀, requestId, assignments, hCall₀, -, hLookup, hErase, -⟩
      · rw [hCall] at hSame
        cases hSame
        exact ⟨hResponses, hRegistered⟩
      · rw [List.getElem?_length] at hCall
        cases hCall
      · rw [hCall] at hCall₀
        cases hCall₀
        refine ⟨hResponses, ?_⟩
        rw [← Bool.not_eq_true] at hRegistered ⊢
        intro hUnregistered
        exact hRegistered (isUnregistered_of_callStep hRule hUnregistered)
      · -- the entry of an answered call is gone
        obtain ⟨call₁, hCall₁, hId, -⟩ := hs.entry requestId i hLookup
        rw [hCall] at hCall₁
        cases hCall₁
        rw [hErase, hId, Finmap.lookup_erase] at hPending
        cases hPending
    · have hLt := (List.getElem?_eq_some_iff.mp hCall).1
      have hCall' : s'.calls[i]? = some { call with phase := .registered } := by
        rw [hCalls]
        exact List.getElem?_set_self hLt
      refine ⟨_, hCall', rfl, hs.fresh i call hCall ?_, rfl⟩
      rw [hPhase]
      rfl
  · intro i call' hCall' hFresh
    rcases hStep.call_cases hCall' with hSame | ⟨items, workerCount, -, rfl⟩ |
        ⟨call, callAct, phase, t, hCall, -, hRule, -, rfl⟩ |
        ⟨call, requestId, assignments, hCall, -, hLookup, -, rfl⟩
    · exact hs.fresh i call' hSame hFresh
    · rfl
    · exact hs.fresh i call hCall (isUnregistered_of_callStep hRule hFresh)
    · -- an answered call has registered
      obtain ⟨call₁, hCall₁, -, -, hRegistered⟩ := hs.entry requestId i hLookup
      rw [hCall] at hCall₁
      cases hCall₁
      rw [Call.deliver_phase, hRegistered] at hFresh
      cases hFresh

/-! ## Calls in progress -/

/-- With this step the call fails to send its request. -/
def FailsToSend (s : Client) (call : Call) : CallAct → Prop
  | .proceed => call.phase = .registered ∧ s.connected = false
  | .fail _ => ∃ stage, call.phase = .sending stage
  | .timeout => False

/-- The step ends a call that fails to send while its entry is there. -/
def Strands (s : Client) (act : Act) : Prop :=
  ∃ c call callAct, act = .call c callAct ∧ s.calls[c]? = some call ∧
    s.FailsToSend call callAct ∧ s.pendingRequests.lookup call.requestId = some c

/-- An entry belongs to a call that has not returned. -/
def Live (s : Client) : Prop :=
  ∀ (requestId : UInt64) (i : ℕ), s.pendingRequests.lookup requestId = some i →
    ∀ call, s.calls[i]? = some call → ∀ result, call.phase ≠ .returned result

/-- A call with an entry that returns has failed to send, or its entry goes. -/
theorem failsToSend_of_returned {c : ℕ} {call : Call} {callAct : CallAct} {t : Client}
    {result : Except MevError (List WorkerAssignment)} (hs : Entries s)
    (hStep : CallStep s c call callAct (.returned result) t) (hCall : s.calls[c]? = some call)
    (hOld : s.pendingRequests.lookup call.requestId = some c)
    (hPending : t.pendingRequests.lookup call.requestId = some c) :
    s.FailsToSend call callAct := by
  obtain ⟨call₀, hCall₀, -, hResponses, hRegistered⟩ := hs.entry _ c hOld
  rw [hCall] at hCall₀
  cases hCall₀
  cases hStep with
  | failToSerialize hPhase =>
    rw [hPhase] at hRegistered
    cases hRegistered
  | notConnected hPhase hConnected => exact ⟨hPhase, hConnected⟩
  | @failToSend stage message hPhase => exact ⟨stage, hPhase⟩
  | receive hPhase hMem =>
    rw [hResponses] at hMem
    cases hMem
  | expire hPhase =>
    rw [Finmap.lookup_erase] at hPending
    cases hPending

theorem live_step (hs : Entries s) (hLive : Live s) (hAct : ¬ Strands s act)
    (h : s.step act = some s') : Live s' := by
  have hStep := step_cases h
  intro requestId i hPending call' hCall' result hReturned
  rcases hStep.pending_cases hPending with hOld | ⟨call, hCall, rfl, -, hCalls⟩
  · rcases hStep.call_cases hCall' with hSame | ⟨items, workerCount, -, rfl⟩ |
        ⟨call, callAct, phase, t, hCall, rfl, hRule, rfl, rfl⟩ |
        ⟨call, requestId', assignments, hCall, -, -, -, rfl⟩
    · exact hLive requestId i hOld call' hSame result hReturned
    · cases hReturned
    · obtain ⟨call₀, hCall₀, rfl, -⟩ := hs.entry requestId i hOld
      rw [hCall] at hCall₀
      cases hCall₀
      dsimp only at hReturned
      subst hReturned
      have hFails := failsToSend_of_returned hs hRule hCall hOld hPending
      exact hAct ⟨i, call, callAct, rfl, hCall, hFails, hOld⟩
    · rw [Call.deliver_phase] at hReturned
      exact hLive requestId i hOld call hCall result hReturned
  · have hLt := (List.getElem?_eq_some_iff.mp hCall).1
    rw [hCalls, List.getElem?_set_self hLt] at hCall'
    cases hCall'
    cases hReturned

theorem not_strands_of_proceed {c : ℕ} (hConnected : s.connected = true) :
    ¬ Strands s (.call c .proceed) := by
  rintro ⟨_, call, callAct, hAct, -, hFails, -⟩
  cases hAct
  rw [hFails.2] at hConnected
  cases hConnected

end Client

/-! ## Main result -/

/-- As long as no call fails to send while its entry is there, the pending requests are
those of calls that have not returned. -/
theorem pending_not_returned (connected : Bool) {acts : List Client.Act} {s : Client}
    (hRun : run Client.step (Client.new connected) acts = some s)
    (hSends : Along Client.step (fun s act => ¬ Client.Strands s act) (Client.new connected) acts) :
    ∀ requestId ∈ s.pendingRequests, ∃ call ∈ s.calls, call.requestId = requestId ∧
      ∀ result, call.phase ≠ .returned result := by
  have hStart : Client.Entries (Client.new connected) ∧ Client.Live (Client.new connected) := by
    refine ⟨Client.entries_new connected, ?_⟩
    intro requestId i _ call hCall
    cases hCall
  have hInv : Client.Entries s ∧ Client.Live s := by
    refine invariant_along (I := fun t => Client.Entries t ∧ Client.Live t) ?_ hRun hSends hStart
    rintro t act t' ⟨hEntries, hLive⟩ hAct h
    exact ⟨Client.entries_step hEntries h, Client.live_step hEntries hLive hAct h⟩
  intro requestId hMem
  obtain ⟨i, hPending⟩ := Finmap.mem_iff.mp hMem
  obtain ⟨call, hCall, hId, -⟩ := hInv.1.entry requestId i hPending
  exact ⟨call, List.mem_of_getElem? hCall, hId, hInv.2 requestId i hPending call hCall⟩

/-- A call that takes its number, serializes and registers. -/
def registering : List Client.Act := [.start [] 1, .call 0 .proceed, .call 0 .proceed]

/-- Its entry is there. -/
theorem pending_not_returned_registering :
    ∃ s, run Client.step (Client.new true) registering = some s ∧
      1 ∈ s.pendingRequests ∧ ∀ requestId ∈ s.pendingRequests,
        ∃ call ∈ s.calls, call.requestId = requestId ∧ ∀ result, call.phase ≠ .returned result := by
  have hSends : Along Client.step (fun s act => ¬ Client.Strands s act) (Client.new true)
      registering := by
    refine ⟨?_, fun s hs => ?_⟩
    · rintro ⟨_, _, _, hAct, -⟩
      cases hAct
    · cases hs
      refine ⟨Client.not_strands_of_proceed rfl, fun s hs => ?_⟩
      cases hs
      exact ⟨Client.not_strands_of_proceed rfl, fun _ _ => trivial⟩
  obtain ⟨s, hRun, hMem⟩ : ∃ s, run Client.step (Client.new true) registering = some s ∧
      1 ∈ s.pendingRequests :=
    ⟨_, rfl, by decide⟩
  exact ⟨s, hRun, hMem, pending_not_returned true hRun hSends⟩

/-- A call that registers and then cannot open a stream. -/
def lostConnection : List Client.Act :=
  .start [] 1 :: List.replicate 3 (.call 0 .proceed) ++ [.call 0 (.fail "connection lost")]

/-- Its entry stays after it has returned. -/
theorem not_pending_not_returned :
    ¬ ∀ (connected : Bool) (s : Client), Reachable Client.step (Client.new connected) s →
      ∀ requestId ∈ s.pendingRequests, ∃ call ∈ s.calls, call.requestId = requestId ∧
        ∀ result, call.phase ≠ .returned result := by
  intro hAll
  obtain ⟨s, hRun, hCalls, hMem⟩ : ∃ s, run Client.step (Client.new true) lostConnection = some s ∧
      s.calls = [⟨1, [], 1, [], .returned (.error (SendStage.opening.error "connection lost"))⟩] ∧
      1 ∈ s.pendingRequests :=
    ⟨_, rfl, rfl, by decide⟩
  obtain ⟨call, hCall, -, hRunning⟩ := hAll true s ⟨_, hRun⟩ 1 hMem
  rw [hCalls, List.mem_singleton] at hCall
  subst hCall
  exact hRunning _ rfl

end Blunder.ExternalSchedulerClient
