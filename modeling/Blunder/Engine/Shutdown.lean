import Blunder.Engine.OneClient

/-!
# Shutting a pool down

`AsyncWorkerPool::shutdown` takes the pool from its owner, who has used it alone until
then. It receives as many completions as the counter says are pending, tells every worker
to stop and sleeps. `TpuPipeline::shutdown` is this shutdown of its pool.

* `step_inv`: nobody is told to stop before all that was sent is completed.
* `shutdown_completes`: what holds at every point, and that every shutdown ends with all
  workers stopped.
-/

namespace Blunder

open Foundation.Transition AsyncWorkerPool

/-- The point that `shutdown` has reached. -/
inductive ShutdownPc
  | notCalled
  | draining (pending : ℕ)
  | signalling (next : ℕ)
  | sleeping
  | returned
deriving DecidableEq

/-- Before the shutdown the owner is the only client of the pool. `drained` is what
`shutdown` has received. -/
structure OwnedPool (workerCount : ℕ) where
  calls : PoolClients workerCount 1
  drained : List WorkCompletion
  pc : ShutdownPc

namespace OwnedPool

variable {workerCount : ℕ}

def new (workerCount : ℕ) : OwnedPool workerCount :=
  ⟨PoolClients.new workerCount 1, [], .notCalled⟩

def setPool (s : OwnedPool workerCount) (pool : AsyncWorkerPool workerCount) :
    OwnedPool workerCount :=
  { s with calls := { s.calls with pool } }

inductive Act (workerCount : ℕ)
  | call (act : PoolClients.Act workerCount 1)
  | work (w : Fin workerCount)
  | shutdown
  | proceed

/-- A sender is given a shutdown; an error is ignored. -/
def signal (pool : AsyncWorkerPool workerCount) (workerId : ℕ) : AsyncWorkerPool workerCount :=
  match pool.send workerId .shutdown with
  | .ok pool => pool
  | .error _ => pool

/-- The next step of `shutdown`. The completions are not uncounted. -/
def proceed (s : OwnedPool workerCount) : Option (OwnedPool workerCount) :=
  match s.pc with
  | .notCalled => none
  | .draining pending =>
    if s.drained.length < pending then
      match s.calls.pool.receiveCompletion with
      | some (completion, pool) =>
        some { s.setPool pool with drained := s.drained ++ [completion] }
      | none => if s.calls.ChannelClosed then some { s with pc := .signalling 0 } else none
    else some { s with pc := .signalling 0 }
  | .signalling next =>
    if next < workerCount then
      some { s.setPool (signal s.calls.pool next) with pc := .signalling (next + 1) }
    else some { s with pc := .sleeping }
  | .sleeping => some { s with pc := .returned }
  | .returned => none

def step (s : OwnedPool workerCount) : Act workerCount → Option (OwnedPool workerCount)
  | .call act =>
    match s.pc with
    | .notCalled => (s.calls.step act).map fun calls => { s with calls }
    | _ => none
  | .work w => (s.calls.pool.workStep w).map s.setPool
  | .shutdown =>
    match s.pc, s.calls.clients 0 with
    | .notCalled, .idle =>
      if s.calls.pool.pendingWork = 0 then some { s with pc := .signalling 0 }
      else some { s with pc := .draining s.calls.pool.pendingWork.toNat }
    | _, _ => none
  | .proceed => s.proceed

/-- The owner sends units only. -/
def Act.SendsShutdown : Act workerCount → Prop
  | .call act => act.SendsShutdown
  | _ => False

instance (act : Act workerCount) : Decidable act.SendsShutdown :=
  match act with
  | .call act => inferInstanceAs (Decidable act.SendsShutdown)
  | .work _ => inferInstanceAs (Decidable False)
  | .shutdown => inferInstanceAs (Decidable False)
  | .proceed => inferInstanceAs (Decidable False)

/-! ## The invariant -/

/-- A worker that has nothing left to do but to stop. -/
def Dismissed (worker : AsyncWorker) : Prop :=
  worker = ⟨[.shutdown], .receiving⟩ ∨ worker = ⟨[], .stopping⟩ ∨ worker = ⟨[], .stopped⟩

/-- While `shutdown` receives: for each worker, what it has received, what is in the channel
and the backlog are together what was sent to it, and there is enough to receive. -/
structure Draining (calls : PoolClients workerCount 1) (drained : List WorkCompletion)
    (pending : ℕ) : Prop where
  opened : Open calls.pool
  locks : AsyncWorkerPool.Inv calls.pool
  conserved : ∀ w : Fin workerCount,
    idsOf (drained ++ calls.pool.completions) w ++ calls.pool.backlogIds w =
      PoolClients.sentIds (calls.sent 0) w
  counted : pending = drained.length + calls.pool.inFlight
  named : ∀ c ∈ drained ++ calls.pool.completions, c.workerId < workerCount
  sentNamed : ∀ entry ∈ calls.sent 0, entry.1 < workerCount

/-- All that was sent is completed, and the first workers have been told to stop. -/
structure Signalling (calls : PoolClients workerCount 1) (drained : List WorkCompletion)
    (next : ℕ) : Prop where
  channel : calls.pool.completions = []
  locks : calls.pool.globalLocks = ∅
  told : ∀ w : Fin workerCount, w.val < next → Dismissed (calls.pool.workers w)
  untold : ∀ w : Fin workerCount, next ≤ w.val → calls.pool.workers w = ⟨[], .receiving⟩
  drained : (drained.map WorkCompletion.entry).Perm (calls.sent 0)

/-- What holds at each point of `shutdown`. -/
def Inv (s : OwnedPool workerCount) : Prop :=
  match s.pc with
  | .notCalled => s.calls.Inv ∧ Open s.calls.pool ∧ s.drained = []
  | .draining pending => Draining s.calls s.drained pending
  | .signalling next => Signalling s.calls s.drained next
  | .sleeping => Signalling s.calls s.drained workerCount
  | .returned => Signalling s.calls s.drained workerCount

theorem new_inv : Inv (new workerCount) :=
  ⟨PoolClients.inv_new workerCount, spawn_open workerCount, rfl⟩

section Parts

variable {calls : PoolClients workerCount 1} {drained : List WorkCompletion} {pending next : ℕ}
  {w : Fin workerCount} {pool : AsyncWorkerPool workerCount}

theorem Dismissed.step {id : ℕ} {worker worker' : AsyncWorker} {locked locked' : Finset Pubkey}
    {completion : Option WorkCompletion} (h : Dismissed worker)
    (hStep : AsyncWorker.Step id worker locked worker' locked' completion) :
    Dismissed worker' ∧ locked' = locked ∧ completion = none := by
  rcases h with rfl | rfl | rfl
  · cases hStep with
    | receive hItem => cases hItem
    | shutdown => exact ⟨Or.inr (Or.inl rfl), rfl, rfl⟩
  · cases hStep
    exact ⟨Or.inr (Or.inr rfl), rfl, rfl⟩
  · cases hStep

theorem Draining.work (hs : Draining calls drained pending)
    (hWork : calls.pool.workStep w = some pool) :
    Draining { calls with pool } drained pending := by
  have hNamed : Named calls.pool := fun c hc => hs.named c (List.mem_append_right _ hc)
  refine ⟨workStep_open hs.opened hWork, workStep_inv hs.locks hWork, ?_, ?_, ?_, hs.sentNamed⟩
  · intro v
    rw [← hs.conserved v, idsOf_append, idsOf_append, List.append_assoc, List.append_assoc,
      workStep_ids hWork v]
  · rw [workStep_inFlight hWork]
    exact hs.counted
  · intro c hc
    rcases List.mem_append.mp hc with hDrained | hChannel
    · exact hs.named c (List.mem_append_left _ hDrained)
    · exact workStep_named hNamed hWork c hChannel

/-- A completion moves from the channel to `shutdown`. -/
theorem Draining.receive {completion : WorkCompletion} {completions : List WorkCompletion}
    (hs : Draining calls drained pending)
    (hChannel : calls.pool.completions = completion :: completions) :
    Draining { calls with pool := { calls.pool with completions } } (drained ++ [completion])
      pending := by
  have hSplit : drained ++ calls.pool.completions = (drained ++ [completion]) ++ completions := by
    rw [hChannel, List.append_assoc]
    rfl
  have hConserved := hs.conserved
  have hCounted := hs.counted
  have hNamed := hs.named
  rw [hSplit] at hConserved hNamed
  refine ⟨hs.opened, hs.locks, hConserved, ?_, hNamed, hs.sentNamed⟩
  rw [inFlight, hChannel, List.length_cons] at hCounted
  rw [inFlight, List.length_append, List.length_singleton]
  dsimp only
  omega

/-- Once as much is received as was pending, nothing is in flight. -/
theorem Draining.finish (hs : Draining calls drained pending)
    (hFlight : calls.pool.inFlight = 0) : Signalling calls drained 0 := by
  obtain ⟨hChannel, hBacklog⟩ := inFlight_eq_zero_iff.mp hFlight
  have hIdle := hs.opened.idle hs.locks hFlight
  refine ⟨hChannel, hIdle.locks, ?_, fun w _ => hIdle.workers w, ?_⟩
  · intro w hw
    exact absurd hw (Nat.not_lt_zero _)
  · have hNamed := hs.named
    have hConserved := hs.conserved
    rw [hChannel, List.append_nil] at hNamed hConserved
    apply PoolClients.entries_perm hNamed hs.sentNamed
    intro w
    rw [← hConserved w, backlogIds, hBacklog w, List.map_nil, List.append_nil]

/-- A step of a worker is one towards its stop. -/
theorem Signalling.work (hs : Signalling calls drained next)
    (hWork : calls.pool.workStep w = some pool) : Signalling { calls with pool } drained next := by
  obtain ⟨worker, locked, completion, hStep, rfl⟩ := workStep_cases hWork
  have hTold : w.val < next := by
    by_contra hNot
    rw [hs.untold w (Nat.le_of_not_lt hNot)] at hStep
    cases hStep
  obtain ⟨hDismissed, rfl, rfl⟩ := (hs.told w hTold).step hStep
  refine ⟨?_, hs.locks, ?_, ?_, hs.drained⟩
  · dsimp only
    rw [hs.channel]
    rfl
  · intro v hv
    dsimp only
    by_cases hvw : v = w
    · subst hvw
      rwa [Function.update_self]
    · rw [Function.update_of_ne hvw]
      exact hs.told v hv
  · intro v hv
    have hvw : v ≠ w := by
      rintro rfl
      exact absurd hTold (Nat.not_lt.mpr hv)
    dsimp only
    rw [Function.update_of_ne hvw]
    exact hs.untold v hv

/-- A worker that waits for an item is told to stop. -/
theorem Signalling.signal (hs : Signalling calls drained next) (hNext : next < workerCount) :
    signal calls.pool next = calls.pool.enqueue ⟨next, hNext⟩ .shutdown ∧
      Signalling { calls with pool := calls.pool.enqueue ⟨next, hNext⟩ .shutdown } drained
        (next + 1) := by
  have hWaits := hs.untold ⟨next, hNext⟩ le_rfl
  refine ⟨?_, hs.channel, hs.locks, ?_, ?_, hs.drained⟩
  · have hOpen : calls.pool.isClosed ⟨next, hNext⟩ = false := by
      rw [isClosed, hWaits]
    rw [OwnedPool.signal, send, dif_pos hNext, hOpen]
    rfl
  · intro v hv
    rw [enqueue]
    dsimp only
    by_cases hvw : v = ⟨next, hNext⟩
    · subst hvw
      rw [Function.update_self, hWaits]
      exact Or.inl rfl
    · rw [Function.update_of_ne hvw]
      apply hs.told v
      have hNe : v.val ≠ next := fun hEq => hvw (Fin.ext hEq)
      omega
  · intro v hv
    have hvw : v ≠ ⟨next, hNext⟩ := by
      rintro rfl
      exact Nat.not_succ_le_self _ hv
    rw [enqueue]
    dsimp only
    rw [Function.update_of_ne hvw]
    exact hs.untold v (Nat.le_of_succ_le hv)

/-- `shutdown` begins: what is pending is what is in flight. -/
theorem Draining.start (hCalls : calls.Inv) (hOpen : Open calls.pool)
    (hPc : calls.clients 0 = .idle) : Draining calls [] calls.pool.pendingWork.toNat := by
  have hConserved := hCalls.conserved
  have hNamed := hCalls.named
  have hLaw := PoolClients.law_of_accounted hCalls.accounted
  rw [hPc] at hConserved hNamed hLaw
  refine ⟨hOpen, hCalls.locks, hConserved, ?_, hNamed, hCalls.sentNamed⟩
  simp only [ClientPc.counts, ClientPc.owes, Nat.add_zero] at hLaw
  rw [List.length_nil, Nat.zero_add]
  exact hLaw

end Parts

section Steps

variable {s s' : OwnedPool workerCount} {act : Act workerCount}

theorem proceed_inv (hs : Inv s) (h : s.proceed = some s') : Inv s' := by
  obtain ⟨calls, drained, pc⟩ := s
  cases pc with
  | notCalled => cases h
  | draining pending =>
    have hDraining : Draining calls drained pending := hs
    have hCounted := hDraining.counted
    simp only [proceed] at h
    split at h
    · rename_i hLt
      unfold receiveCompletion at h
      cases hChannel : calls.pool.completions with
      | nil =>
        simp only [hChannel] at h
        split at h
        · rename_i hClosed
          have hFlight := PoolClients.inFlight_of_channelClosed hChannel hClosed
          omega
        · cases h
      | cons completion completions =>
        simp only [hChannel] at h
        cases h
        exact hDraining.receive hChannel
    · cases h
      exact hDraining.finish (by omega)
  | signalling next =>
    have hSignalling : Signalling calls drained next := hs
    simp only [proceed] at h
    split at h
    · rename_i hNext
      obtain ⟨hSignal, hTold⟩ := hSignalling.signal hNext
      simp only [hSignal] at h
      cases h
      exact hTold
    · cases h
      refine ⟨hSignalling.channel, hSignalling.locks, ?_, ?_, hSignalling.drained⟩
      · intro w _
        exact hSignalling.told w (by omega)
      · intro w hw
        exact absurd w.isLt (Nat.not_lt.mpr hw)
  | sleeping =>
    cases h
    exact hs
  | returned => cases h

theorem work_inv {w : Fin workerCount} {pool : AsyncWorkerPool workerCount} (hs : Inv s)
    (hWork : s.calls.pool.workStep w = some pool) : Inv (s.setPool pool) := by
  obtain ⟨calls, drained, pc⟩ := s
  cases pc with
  | notCalled =>
    obtain ⟨hCalls, hOpen, hDrained⟩ := hs
    have hCall : calls.step (.work w) = some { calls with pool } := by
      rw [PoolClients.step, hWork]
      rfl
    have hNot : ¬ (PoolClients.Act.work w : PoolClients.Act workerCount 1).SendsShutdown := id
    exact ⟨PoolClients.inv_step hCalls (PoolClients.not_behindShutdown hOpen) hCall,
      PoolClients.open_step hOpen hNot hCall, hDrained⟩
  | draining pending => exact Draining.work hs hWork
  | signalling next => exact Signalling.work hs hWork
  | sleeping => exact Signalling.work hs hWork
  | returned => exact Signalling.work hs hWork

theorem step_inv (hs : Inv s) (hUnits : ¬ act.SendsShutdown) (h : s.step act = some s') :
    Inv s' := by
  cases act with
  | call act =>
    obtain ⟨calls, drained, pc⟩ := s
    cases pc with
    | notCalled =>
      obtain ⟨hCalls, hOpen, hDrained⟩ := hs
      obtain ⟨calls', hCall, rfl⟩ := Option.map_eq_some_iff.mp h
      exact ⟨PoolClients.inv_step hCalls (PoolClients.not_behindShutdown hOpen) hCall,
        PoolClients.open_step hOpen hUnits hCall, hDrained⟩
    | _ => cases h
  | work w =>
    obtain ⟨pool, hWork, rfl⟩ := Option.map_eq_some_iff.mp h
    exact work_inv hs hWork
  | shutdown =>
    obtain ⟨calls, drained, pc⟩ := s
    cases pc with
    | notCalled =>
      obtain ⟨hCalls, hOpen, hDrained⟩ := hs
      obtain rfl : drained = [] := hDrained
      simp only [step] at h
      cases hPc : calls.clients 0 with
      | idle =>
        have hDraining : Draining calls [] calls.pool.pendingWork.toNat :=
          Draining.start hCalls hOpen hPc
        have hCounted := hDraining.counted
        simp only [hPc] at h
        by_cases hPending : calls.pool.pendingWork = 0
        · rw [hPending, UInt64.toNat_zero, List.length_nil] at hCounted
          rw [if_pos hPending] at h
          cases h
          exact hDraining.finish (by omega)
        · rw [if_neg hPending] at h
          cases h
          exact hDraining
      | _ =>
        rw [hPc] at h
        cases h
    | _ => cases h
  | proceed => exact proceed_inv hs h

/-! ## The shutdown ends -/

/-- An upper bound on the steps that `shutdown` has left, and on what it gives the workers to
do. -/
def ShutdownPc.effort (workerCount received : ℕ) : ShutdownPc → ℕ
  | .notCalled => 0
  | .draining pending => (pending - received) + 3 * workerCount + 3
  | .signalling next => 3 * (workerCount - next) + 2
  | .sleeping => 1
  | .returned => 0

def effort (s : OwnedPool workerCount) : ℕ :=
  s.calls.pool.effort + ShutdownPc.effort workerCount s.drained.length s.pc

theorem signal_effort_le (pool : AsyncWorkerPool workerCount) (workerId : ℕ) :
    (signal pool workerId).effort ≤ pool.effort + 2 := by
  rw [signal]
  rcases send_cases pool workerId .shutdown with ⟨w, -, -, hSend⟩ | ⟨e, hSend⟩
  · rw [hSend]
    dsimp only
    rw [enqueue_effort]
    exact le_rfl
  · rw [hSend]
    exact Nat.le_add_right _ _

theorem proceed_effort_lt (h : s.proceed = some s') :
    s'.pc ≠ .notCalled ∧ s'.effort < s.effort := by
  obtain ⟨calls, drained, pc⟩ := s
  cases pc with
  | notCalled => cases h
  | draining pending =>
    simp only [proceed] at h
    split at h
    · rename_i hLt
      unfold receiveCompletion at h
      cases hChannel : calls.pool.completions with
      | nil =>
        simp only [hChannel] at h
        split at h
        · cases h
          refine ⟨(fun hPc => by cases hPc), ?_⟩
          simp only [effort, ShutdownPc.effort]
          omega
        · cases h
      | cons completion completions =>
        simp only [hChannel] at h
        cases h
        refine ⟨(fun hPc => by cases hPc), ?_⟩
        simp only [effort, ShutdownPc.effort, setPool, AsyncWorkerPool.effort, List.length_append,
          List.length_singleton]
        omega
    · cases h
      refine ⟨(fun hPc => by cases hPc), ?_⟩
      simp only [effort, ShutdownPc.effort]
      omega
  | signalling next =>
    have hSignal := signal_effort_le calls.pool next
    simp only [proceed] at h
    split at h
    · cases h
      refine ⟨(fun hPc => by cases hPc), ?_⟩
      simp only [effort, ShutdownPc.effort, setPool]
      omega
    · cases h
      refine ⟨(fun hPc => by cases hPc), ?_⟩
      simp only [effort, ShutdownPc.effort]
      omega
  | sleeping =>
    cases h
    refine ⟨(fun hPc => by cases hPc), ?_⟩
    simp only [effort, ShutdownPc.effort]
    omega
  | returned => cases h

/-- Once `shutdown` is called, every step uses up effort. -/
theorem effort_lt (hCalled : s.pc ≠ .notCalled) (h : s.step act = some s') :
    s'.pc ≠ .notCalled ∧ s'.effort < s.effort := by
  cases act with
  | call act =>
    rw [step] at h
    split at h
    · rename_i hPc
      exact absurd hPc hCalled
    · cases h
  | work w =>
    obtain ⟨pool, hWork, rfl⟩ := Option.map_eq_some_iff.mp h
    have hLt := workStep_effort_lt hWork
    refine ⟨hCalled, ?_⟩
    simp only [effort, setPool]
    omega
  | shutdown =>
    rw [step] at h
    split at h
    · rename_i hPc _
      exact absurd hPc hCalled
    · cases h
  | proceed => exact proceed_effort_lt h

theorem length_le_effort {acts : List (Act workerCount)} (hCalled : s.pc ≠ .notCalled)
    (h : run step s acts = some s') : acts.length ≤ s.effort := by
  induction acts generalizing s with
  | nil => exact Nat.zero_le _
  | cons act acts ih =>
    obtain ⟨t, hStep, hRun⟩ := run_cons_eq_some_iff.mp h
    obtain ⟨hNext, hLt⟩ := effort_lt hCalled hStep
    have hLe := ih hNext hRun
    rw [List.length_cons]
    omega

/-- A worker that is dismissed stops. -/
theorem Dismissed.exists_step {worker : AsyncWorker} (h : Dismissed worker)
    (hNot : worker ≠ ⟨[], .stopped⟩) (id : ℕ) (locked : Finset Pubkey) :
    ∃ worker' locked' completion, AsyncWorker.Step id worker locked worker' locked' completion := by
  rcases h with rfl | rfl | rfl
  · exact ⟨_, _, _, AsyncWorker.Step.shutdown⟩
  · exact ⟨_, _, _, AsyncWorker.Step.stop⟩
  · exact absurd rfl hNot

theorem exists_work {w : Fin workerCount} {pool : AsyncWorkerPool workerCount}
    (hWork : s.calls.pool.workStep w = some pool) : ∃ act s', s.step act = some s' := by
  refine ⟨.work w, s.setPool pool, ?_⟩
  rw [step, hWork]
  rfl

/-- Until all workers have stopped, `shutdown` or a worker has a step. -/
theorem Inv.progress (hs : Inv s) (hCalled : s.pc ≠ .notCalled) :
    (s.pc = .returned ∧ ∀ w, s.calls.pool.workers w = ⟨[], .stopped⟩) ∨
      ∃ act s', s.step act = some s' := by
  obtain ⟨calls, drained, pc⟩ := s
  cases pc with
  | notCalled => exact absurd rfl hCalled
  | draining pending =>
    right
    have hDraining : Draining calls drained pending := hs
    have hCounted := hDraining.counted
    by_cases hLt : drained.length < pending
    · cases hChannel : calls.pool.completions with
      | nil =>
        obtain ⟨w, pool, hWork⟩ := exists_workStep_of_inFlight (by omega) hChannel
        exact exists_work hWork
      | cons completion completions =>
        refine ⟨.proceed, Option.isSome_iff_exists.mp ?_⟩
        simp only [step, proceed, if_pos hLt, receiveCompletion, hChannel]
        rfl
    · refine ⟨.proceed, Option.isSome_iff_exists.mp ?_⟩
      simp only [step, proceed, if_neg hLt]
      rfl
  | signalling next =>
    right
    refine ⟨.proceed, Option.isSome_iff_exists.mp ?_⟩
    simp only [step, proceed]
    split <;> rfl
  | sleeping => exact Or.inr ⟨.proceed, _, rfl⟩
  | returned =>
    have hSignalling : Signalling calls drained workerCount := hs
    by_cases hAll : ∀ w, calls.pool.workers w = ⟨[], .stopped⟩
    · exact Or.inl ⟨rfl, hAll⟩
    · right
      obtain ⟨w, hw⟩ := not_forall.mp hAll
      obtain ⟨worker, locked, completion, hStep⟩ :=
        (hSignalling.told w w.isLt).exists_step hw w calls.pool.globalLocks
      exact exists_work (workStep_of_step hStep)

end Steps

/-! ## Main result -/

/-- How a pool is shut down.
* `waited`: each wait before has returned one completion for each unit that was sent since the
  wait before it.
* `opened`: as long as anything is pending no worker has been told to stop.
* `completed`: before the first worker is told to stop, `shutdown` has received one completion
  for each unit that was sent since the last wait, no unit is left in a queue and no account is
  locked.
* `dismissed`: when `shutdown` returns, a worker has at most its `Shutdown` left to read.
* `progress`, `bounded`: it does return, and all workers stop, after a bounded number of steps in
  any order. -/
structure ShutsDown (s : OwnedPool workerCount) : Prop where
  waited : s.pc = .notCalled → ∀ completions, s.calls.clients 0 = .returned completions →
    PoolClients.CompletesAll s.calls completions
  opened : (s.pc = .notCalled ∨ ∃ pending, s.pc = .draining pending) → Open s.calls.pool
  completed : s.pc ≠ .notCalled → (∀ pending, s.pc ≠ .draining pending) →
    (s.drained.map WorkCompletion.entry).Perm (s.calls.sent 0) ∧ s.calls.pool.inFlight = 0 ∧
      s.calls.pool.globalLocks = ∅
  dismissed : s.pc = .returned → ∀ w, Dismissed (s.calls.pool.workers w)
  progress : s.pc ≠ .notCalled →
    (s.pc = .returned ∧ ∀ w, s.calls.pool.workers w = ⟨[], .stopped⟩) ∨
      ∃ act s', s.step act = some s'
  bounded : s.pc ≠ .notCalled → ∀ acts t, run step s acts = some t → acts.length ≤ s.effort

section Main

variable {s : OwnedPool workerCount}

theorem Signalling.inFlight {calls : PoolClients workerCount 1} {drained : List WorkCompletion}
    {next : ℕ} (hs : Signalling calls drained next) : calls.pool.inFlight = 0 := by
  apply inFlight_eq_zero_iff.mpr
  refine ⟨hs.channel, ?_⟩
  intro w
  rcases Nat.lt_or_ge w.val next with hLt | hGe
  · rcases hs.told w hLt with hWorker | hWorker | hWorker
    · rw [hWorker]
      rfl
    · rw [hWorker]
      rfl
    · rw [hWorker]
      rfl
  · rw [hs.untold w hGe]
    rfl

theorem Inv.shutsDown (hs : Inv s) : ShutsDown s := by
  refine ⟨?_, ?_, ?_, ?_, hs.progress, fun hCalled acts t h => length_le_effort hCalled h⟩
  · obtain ⟨calls, drained, pc⟩ := s
    intro hPc completions hReturned
    cases hPc
    exact PoolClients.Inv.completesAll hs.1 hs.2.1 hReturned
  · obtain ⟨calls, drained, pc⟩ := s
    intro hPc
    rcases hPc with hPc | ⟨pending, hPc⟩
    · cases hPc
      exact hs.2.1
    · cases hPc
      exact Draining.opened hs
  · obtain ⟨calls, drained, pc⟩ := s
    intro hCalled hDrained
    have hSignalling : ∃ next, Signalling calls drained next := by
      cases pc with
      | notCalled => exact absurd rfl hCalled
      | draining pending => exact absurd rfl (hDrained pending)
      | signalling next => exact ⟨next, hs⟩
      | sleeping => exact ⟨workerCount, hs⟩
      | returned => exact ⟨workerCount, hs⟩
    obtain ⟨next, hNext⟩ := hSignalling
    exact ⟨hNext.drained, hNext.inFlight, hNext.locks⟩
  · obtain ⟨calls, drained, pc⟩ := s
    intro hPc w
    cases hPc
    have hSignalling : Signalling calls drained workerCount := hs
    exact hSignalling.told w w.isLt

/-- The owner may have used the pool in any way before, sending only units. -/
theorem shutdown_completes {acts : List (Act workerCount)}
    (hUnits : ∀ act ∈ acts, ¬ act.SendsShutdown) (hRun : run step (new workerCount) acts = some s) :
    ShutsDown s := by
  have hs : Inv s := invariant_along (fun _ _ _ ht hAct hStep => step_inv ht hAct hStep) hRun
    (Along.of_forall hUnits) new_inv
  exact hs.shutsDown

/-- The owner sends a unit and waits for it. Then it sends a bundle to one worker and to the other
one a transaction that shares an account with it, and shuts the pool down while the bundle is
executed. The second worker does not get to read its `Shutdown`. -/
def secondRound (v w : Fin 2) : List (Act 2) :=
  let tx id := Transaction.new id [AccountMeta.new (Pubkey.filled 1) true] 1 1
  let send (w : Fin 2) item := [Act.call (.send 0 w item), Act.call (.proceed 0)]
  List.flatten [
    send w (.transaction (tx "earlier")), [.call (.wait 0), .call (.proceed 0)],
    List.replicate 5 (.work w), List.replicate 4 (.call (.proceed 0)),
    send v (.bundle (Bundle.new 7 [tx "a", tx "b"] 1 "searcher")),
    send w (.transaction (tx "beside")), [.work v, .work v], List.replicate 3 (.work w),
    [.shutdown, .proceed], List.replicate 4 (.work v), List.replicate 6 .proceed,
    [.work v, .work v]]

theorem shutdown_completes_secondRound :
    ∃ s, run step (new 2) (secondRound 0 1) = some s ∧ s.pc = .returned ∧
      s.drained = [⟨1, "beside", false, some "Lock acquisition failed"⟩, ⟨0, "7", true, none⟩] ∧
      (s.calls.pool.workers 0).queue = [] ∧ (s.calls.pool.workers 1).queue = [.shutdown] ∧
      ShutsDown s := by
  have hUnits : ∀ act ∈ secondRound 0 1, ¬ act.SendsShutdown := by decide
  have hSeen : (run step (new 2) (secondRound 0 1)).map
      (fun s => (s.pc, s.drained, fun w => (s.calls.pool.workers w).queue)) =
      some (.returned, [⟨1, "beside", false, some "Lock acquisition failed"⟩,
        ⟨0, "7", true, none⟩], ![[], [.shutdown]]) := by
    decide +kernel
  obtain ⟨s, hRun, hState⟩ := Option.map_eq_some_iff.mp hSeen
  simp only [Prod.mk.injEq] at hState
  obtain ⟨hPc, hDrained, hQueues⟩ := hState
  exact ⟨s, hRun, hPc, hDrained, congrFun hQueues 0, congrFun hQueues 1,
    shutdown_completes hUnits hRun⟩

end Main

end OwnedPool

end Blunder
