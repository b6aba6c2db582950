import Blunder.Engine.Serializability

/-!
# Synchronous workers

`WorkerPool` has no queues: threads call `execute_transaction` and `execute_bundle` on its
workers, which share one set of locked accounts. A worker may be used by several threads
at once. `acquire_locks` and `release_locks` hold the `RwLock` of the shared set and are one
step each; each transaction is a step of its own. What executing a transaction returns is a
parameter, so that the loop of `execute_bundle` may fail; in the source it always succeeds
(`executeTransactionInner`).

* `WorkerThreads.step_inv`: the shared set is that of the calls in progress, however they end.
* `WorkerThreads.reachable_discipline`: what this means for every reachable state.
* `AsyncWorkerPool.reachable_asThreads`: an asynchronous pool does what the synchronous one with
  a thread for each worker does.
-/

namespace Blunder

open Foundation.LockTable Foundation.Transition

structure Worker where
  id : ℕ
deriving DecidableEq

structure WorkerPool where
  workers : List Worker
  globalLocks : Finset Pubkey
deriving DecidableEq

namespace WorkerPool

def new (workerCount : ℕ) : WorkerPool := ⟨(List.range workerCount).map Worker.mk, ∅⟩

def getWorker (pool : WorkerPool) (id : ℕ) : Option Worker := pool.workers[id]?

def lockedAccountCount (pool : WorkerPool) : ℕ := pool.globalLocks.card

end WorkerPool

/-- The source executes nothing. -/
def executeTransactionInner (_ : Transaction) : Except MevError Unit := .ok ()

/-- The point that a thread has reached. `rest` are the transactions still to be executed. -/
inductive ThreadPhase
  | idle
  | acquiring (unit : SchedulableUnit)
  | executing (unit : SchedulableUnit) (rest : List Transaction)
  | releasing (unit : SchedulableUnit) (result : Except MevError Unit)
  | returned (unit : SchedulableUnit) (result : Except MevError Unit)

/-- The accounts that a thread has locked. -/
def ThreadPhase.held : ThreadPhase → Finset Pubkey
  | .executing unit _ => unit.allAccounts
  | .releasing unit _ => unit.allAccounts
  | _ => ∅

/-- The error of a call for that of one of its transactions. -/
def SchedulableUnit.executionError : SchedulableUnit → MevError → MevError
  | .transaction _, e => e
  | .bundle _, e => .bundleExecutionFailed e.display

/-- Transactions one after another, up to the first that fails. -/
def executeAll (inner : Transaction → Except MevError Unit) :
    List Transaction → Except MevError Unit
  | [] => .ok ()
  | tx :: rest =>
    match inner tx with
    | .ok () => executeAll inner rest
    | .error e => .error e

/-- What a call returns that gets its locks. -/
def SchedulableUnit.outcome (unit : SchedulableUnit) (inner : Transaction → Except MevError Unit) :
    Except MevError Unit :=
  (executeAll inner unit.transactions).mapError unit.executionError

/-- The call for `unit` has passed `acquire_locks` and will return `result`. -/
def ThreadPhase.WillReturn (inner : Transaction → Except MevError Unit) (unit : SchedulableUnit)
    (result : Except MevError Unit) : ThreadPhase → Prop
  | .executing running rest =>
    running = unit ∧ (executeAll inner rest).mapError unit.executionError = result
  | .releasing running r => running = unit ∧ r = result
  | .returned running r => running = unit ∧ r = result
  | _ => False

/-- The steps that a call has before it, at most. -/
def ThreadPhase.remaining : ThreadPhase → ℕ
  | .idle => 0
  | .acquiring unit => unit.transactions.length + 3
  | .executing _ rest => rest.length + 2
  | .releasing _ _ => 1
  | .returned _ _ => 0

structure WorkerThreads (threadCount : ℕ) where
  pool : WorkerPool
  threads : Fin threadCount → ThreadPhase

namespace WorkerThreads

variable {threadCount : ℕ}

def new (workerCount threadCount : ℕ) : WorkerThreads threadCount :=
  ⟨WorkerPool.new workerCount, fun _ => .idle⟩

def goto (s : WorkerThreads threadCount) (t : Fin threadCount) (phase : ThreadPhase)
    (locked : Finset Pubkey) : WorkerThreads threadCount where
  pool := { s.pool with globalLocks := locked }
  threads := Function.update s.threads t phase

inductive Act (threadCount : ℕ)
  | call (t : Fin threadCount) (workerId : ℕ) (unit : SchedulableUnit)
  | proceed (t : Fin threadCount)
  | take (t : Fin threadCount)
deriving DecidableEq

/-- The next step of a call. -/
def proceed (inner : Transaction → Except MevError Unit) (s : WorkerThreads threadCount)
    (t : Fin threadCount) : Option (WorkerThreads threadCount) :=
  let locked := s.pool.globalLocks
  match s.threads t with
  | .idle => none
  | .acquiring unit =>
    match AsyncWorker.acquireLocks locked unit.allAccounts with
    | (locked, .ok ()) => some (s.goto t (.executing unit unit.transactions) locked)
    | (locked, .error e) => some (s.goto t (.returned unit (.error e)) locked)
  | .executing unit (tx :: rest) =>
    match inner tx with
    | .ok () => some (s.goto t (.executing unit rest) locked)
    | .error e => some (s.goto t (.releasing unit (.error (unit.executionError e))) locked)
  | .executing unit [] => some (s.goto t (.releasing unit (.ok ())) locked)
  | .releasing unit result =>
    some (s.goto t (.returned unit result) (AsyncWorker.releaseLocks locked unit.allAccounts))
  | .returned _ _ => none

/-- A thread calls a worker that exists, and takes the result before its next call. -/
def step (inner : Transaction → Except MevError Unit) (s : WorkerThreads threadCount) :
    Act threadCount → Option (WorkerThreads threadCount)
  | .call t workerId unit =>
    match s.threads t, s.pool.getWorker workerId with
    | .idle, some _ => some (s.goto t (.acquiring unit) s.pool.globalLocks)
    | _, _ => none
  | .proceed t => s.proceed inner t
  | .take t =>
    match s.threads t with
    | .returned _ _ => some (s.goto t .idle s.pool.globalLocks)
    | _ => none

/-- The transition rules of a thread: its phases and the shared set. -/
inductive Rule (inner : Transaction → Except MevError Unit) (locked : Finset Pubkey) :
    ThreadPhase → ThreadPhase → Finset Pubkey → Prop
  | call {unit} : Rule inner locked .idle (.acquiring unit) locked
  | acquire {unit} (hFree : Disjoint unit.allAccounts locked) :
    Rule inner locked (.acquiring unit) (.executing unit unit.transactions)
      (locked ∪ unit.allAccounts)
  | reject {unit} (hBusy : ¬ Disjoint unit.allAccounts locked) :
    Rule inner locked (.acquiring unit) (.returned unit (.error .lockAcquisitionFailed)) locked
  | execute {unit tx rest} (hInner : inner tx = .ok ()) :
    Rule inner locked (.executing unit (tx :: rest)) (.executing unit rest) locked
  | fail {unit tx rest e} (hInner : inner tx = .error e) :
    Rule inner locked (.executing unit (tx :: rest))
      (.releasing unit (.error (unit.executionError e))) locked
  | finish {unit} : Rule inner locked (.executing unit []) (.releasing unit (.ok ())) locked
  | release {unit result} :
    Rule inner locked (.releasing unit result) (.returned unit result) (locked \ unit.allAccounts)
  | take {unit result} : Rule inner locked (.returned unit result) .idle locked


/-- The thread that takes a step. -/
def Act.thread : Act threadCount → Fin threadCount
  | .call t _ _ | .proceed t | .take t => t

section Steps

variable {inner : Transaction → Except MevError Unit} {s s' : WorkerThreads threadCount}
  {act : Act threadCount} {t : Fin threadCount}

theorem proceed_cases (h : s.proceed inner t = some s') :
    ∃ phase locked, Rule inner s.pool.globalLocks (s.threads t) phase locked ∧
      s' = s.goto t phase locked := by
  unfold proceed at h
  cases hPhase : s.threads t with
  | idle =>
    rw [hPhase] at h
    cases h
  | acquiring unit =>
    rw [hPhase] at h
    by_cases hFree : Disjoint unit.allAccounts s.pool.globalLocks
    · simp only [AsyncWorker.acquireLocks_of_disjoint hFree] at h
      cases h
      exact ⟨_, _, Rule.acquire hFree, rfl⟩
    · simp only [AsyncWorker.acquireLocks_of_not_disjoint hFree] at h
      cases h
      exact ⟨_, _, Rule.reject hFree, rfl⟩
  | executing unit rest =>
    rw [hPhase] at h
    cases rest with
    | nil =>
      cases h
      exact ⟨_, _, Rule.finish, rfl⟩
    | cons tx rest =>
      cases hInner : inner tx with
      | ok v =>
        simp only [hInner] at h
        cases h
        exact ⟨_, _, Rule.execute hInner, rfl⟩
      | error e =>
        simp only [hInner] at h
        cases h
        exact ⟨_, _, Rule.fail hInner, rfl⟩
  | releasing unit result =>
    rw [hPhase] at h
    cases h
    exact ⟨_, _, Rule.release, rfl⟩
  | returned unit result =>
    rw [hPhase] at h
    cases h

/-- Each step is one rule, for one thread. -/
theorem step_cases (h : s.step inner act = some s') :
    ∃ phase locked, Rule inner s.pool.globalLocks (s.threads act.thread) phase locked ∧
      s' = s.goto act.thread phase locked := by
  cases act with
  | call t workerId unit =>
    simp only [step] at h
    split at h
    · rename_i hPhase _
      cases h
      exact ⟨_, _, hPhase ▸ Rule.call, rfl⟩
    · cases h
  | proceed t => exact proceed_cases h
  | take t =>
    simp only [step] at h
    split at h
    · rename_i hPhase
      cases h
      exact ⟨_, _, hPhase ▸ Rule.take, rfl⟩
    · cases h

end Steps

section Rules

variable {inner : Transaction → Except MevError Unit} {s : WorkerThreads threadCount}
  {t : Fin threadCount} {unit : SchedulableUnit}

theorem goto_self : s.goto t (s.threads t) s.pool.globalLocks = s := by
  rw [goto, Function.update_eq_self]

theorem goto_goto {phase phase' : ThreadPhase} {locked locked' : Finset Pubkey} :
    (s.goto t phase locked).goto t phase' locked' = s.goto t phase' locked' := by
  simp only [goto, Function.update_idem]

theorem step_call {workerId : ℕ} {worker : Worker} (hPhase : s.threads t = .idle)
    (hWorker : s.pool.getWorker workerId = some worker) :
    s.step inner (.call t workerId unit) = some (s.goto t (.acquiring unit) s.pool.globalLocks) := by
  simp only [step, hPhase, hWorker]

theorem step_take {result : Except MevError Unit} (hPhase : s.threads t = .returned unit result) :
    s.step inner (.take t) = some (s.goto t .idle s.pool.globalLocks) := by
  simp only [step, hPhase]

theorem proceed_acquire (hPhase : s.threads t = .acquiring unit)
    (hFree : Disjoint unit.allAccounts s.pool.globalLocks) :
    s.proceed inner t = some (s.goto t (.executing unit unit.transactions)
      (s.pool.globalLocks ∪ unit.allAccounts)) := by
  simp only [proceed, hPhase, AsyncWorker.acquireLocks_of_disjoint hFree]

theorem proceed_reject (hPhase : s.threads t = .acquiring unit)
    (hBusy : ¬ Disjoint unit.allAccounts s.pool.globalLocks) :
    s.proceed inner t =
      some (s.goto t (.returned unit (.error .lockAcquisitionFailed)) s.pool.globalLocks) := by
  simp only [proceed, hPhase, AsyncWorker.acquireLocks_of_not_disjoint hBusy]

theorem proceed_execute {tx : Transaction} {rest : List Transaction}
    (hPhase : s.threads t = .executing unit (tx :: rest)) (hInner : inner tx = .ok ()) :
    s.proceed inner t = some (s.goto t (.executing unit rest) s.pool.globalLocks) := by
  simp only [proceed, hPhase, hInner]

theorem proceed_fail {tx : Transaction} {rest : List Transaction} {e : MevError}
    (hPhase : s.threads t = .executing unit (tx :: rest)) (hInner : inner tx = .error e) :
    s.proceed inner t =
      some (s.goto t (.releasing unit (.error (unit.executionError e))) s.pool.globalLocks) := by
  simp only [proceed, hPhase, hInner]

theorem proceed_finish (hPhase : s.threads t = .executing unit []) :
    s.proceed inner t = some (s.goto t (.releasing unit (.ok ())) s.pool.globalLocks) := by
  simp only [proceed, hPhase]

theorem proceed_release {result : Except MevError Unit}
    (hPhase : s.threads t = .releasing unit result) :
    s.proceed inner t =
      some (s.goto t (.returned unit result) (s.pool.globalLocks \ unit.allAccounts)) := by
  simp only [proceed, hPhase]
  rfl

theorem reachable_proceed {s' : WorkerThreads threadCount} (h : s.proceed inner t = some s') :
    Reachable (step inner) s s' :=
  Reachable.single (a := .proceed t) h

end Rules

/-! ## The locks -/

/-- What each thread has locked. -/
def held (s : WorkerThreads threadCount) (t : Fin threadCount) : Finset Pubkey := (s.threads t).held

theorem held_goto (s : WorkerThreads threadCount) (t : Fin threadCount) (phase : ThreadPhase)
    (locked : Finset Pubkey) : (s.goto t phase locked).held = Function.update s.held t phase.held := by
  funext v
  by_cases hv : v = t
  · subst hv
    simp [held, goto]
  · simp [held, goto, hv]

/-- The shared set belongs to the calls in progress, each account to one of them. -/
def Inv (s : WorkerThreads threadCount) : Prop := Exclusive s.pool.globalLocks (family s.held)

theorem new_inv {workerCount : ℕ} : Inv (new workerCount threadCount) := by
  intro acc
  simp [new, WorkerPool.new, family, held, ThreadPhase.held, ownerCount]

section Steps

variable {inner : Transaction → Except MevError Unit} {s s' : WorkerThreads threadCount}
  {act : Act threadCount} {t : Fin threadCount}

theorem step_inv (hInv : Inv s) (h : s.step inner act = some s') : Inv s' := by
  obtain ⟨phase, locked, hRule, rfl⟩ := step_cases h
  rw [Inv, held_goto]
  change Exclusive locked _
  -- A rule that moves no lock leaves the holders as they are.
  have hQuiet : locked = s.pool.globalLocks → phase.held = s.held act.thread →
      Exclusive locked (family (Function.update s.held act.thread phase.held)) := by
    intro hLocked hHeld
    rw [hLocked, hHeld, Function.update_eq_self]
    exact hInv
  have hHeld : s.held act.thread = (s.threads act.thread).held := rfl
  generalize s.threads act.thread = before at hRule hHeld
  cases hRule with
  | acquire hFree => exact hInv.family_acquire hHeld hFree
  | @release unit result =>
    have hReleased := hInv.family_release act.thread
    rw [hHeld] at hReleased
    exact hReleased
  | _ => exact hQuiet rfl hHeld.symm

theorem threads_of_ne (hThread : act.thread ≠ t) (h : s.step inner act = some s') :
    s'.threads t = s.threads t := by
  obtain ⟨phase, locked, -, rfl⟩ := step_cases h
  exact Function.update_of_ne (Ne.symm hThread) _ _

end Steps

/-! ## The fate of one call -/

/-- No call in progress shares an account with `unit`. -/
def FreeFor (s : WorkerThreads threadCount) (unit : SchedulableUnit) : Prop :=
  ∀ t, Disjoint unit.allAccounts (s.held t)

theorem Inv.freeFor_iff {s : WorkerThreads threadCount} (hInv : Inv s) (unit : SchedulableUnit) :
    s.FreeFor unit ↔ Disjoint unit.allAccounts s.pool.globalLocks := by
  rw [hInv.family_eq_biUnion, Finset.disjoint_biUnion_right]
  exact ⟨fun hFree t _ => hFree t, fun hFree t => hFree t (Finset.mem_univ t)⟩

section Fate

variable {inner : Transaction → Except MevError Unit} {s s' : WorkerThreads threadCount}
  {act : Act threadCount} {acts : List (Act threadCount)} {t : Fin threadCount}
  {unit : SchedulableUnit} {result : Except MevError Unit}

/-- A call that has not returned never waits. -/
theorem proceed_of_remaining (hPos : 0 < (s.threads t).remaining) :
    ∃ s', s.proceed inner t = some s' := by
  cases hPhase : s.threads t with
  | acquiring unit =>
    by_cases hFree : Disjoint unit.allAccounts s.pool.globalLocks
    · exact ⟨_, proceed_acquire hPhase hFree⟩
    · exact ⟨_, proceed_reject hPhase hFree⟩
  | executing unit rest =>
    cases rest with
    | nil => exact ⟨_, proceed_finish hPhase⟩
    | cons tx rest =>
      cases hInner : inner tx with
      | ok v => exact ⟨_, proceed_execute hPhase hInner⟩
      | error e => exact ⟨_, proceed_fail hPhase hInner⟩
  | releasing unit result => exact ⟨_, proceed_release hPhase⟩
  | _ =>
    rw [hPhase] at hPos
    cases hPos

theorem proceed_of_idle (hPhase : s.threads t = .idle) : s.proceed inner t = none := by
  unfold proceed
  rw [hPhase]

theorem proceed_of_returned (hPhase : s.threads t = .returned unit result) :
    s.proceed inner t = none := by
  unfold proceed
  rw [hPhase]

/-- A call gets closer to its end by each of its steps. -/
theorem proceed_remaining (h : s.proceed inner t = some s') :
    s'.threads t ≠ .idle ∧ (s'.threads t).remaining < (s.threads t).remaining := by
  obtain ⟨phase, locked, hRule, rfl⟩ := proceed_cases h
  have hIdle : s.threads t ≠ .idle := fun hPhase => by cases (proceed_of_idle hPhase).symm.trans h
  have hReturned : ∀ unit result, s.threads t ≠ .returned unit result :=
    fun _ _ hPhase => by cases (proceed_of_returned hPhase).symm.trans h
  simp only [goto, Function.update_self]
  generalize s.threads t = before at hRule hIdle hReturned
  cases hRule with
  | call => exact absurd rfl hIdle
  | take => exact absurd rfl (hReturned _ _)
  | _ => simp [ThreadPhase.remaining]

/-- What is no step of a call in progress and does not take its result leaves it where it is. -/
theorem threads_of_not_own (hIdle : s.threads t ≠ .idle) (hTake : act ≠ .take t)
    (hProceed : act ≠ .proceed t) (h : s.step inner act = some s') :
    s'.threads t = s.threads t := by
  by_cases hThread : act.thread = t
  · cases act with
    | call own workerId unit =>
      obtain rfl : own = t := hThread
      simp only [step] at h
      split at h
      · rename_i hPhase _
        exact absurd hPhase hIdle
      · cases h
    | proceed own => exact absurd (congrArg Act.proceed hThread) hProceed
    | take own => exact absurd (congrArg Act.take hThread) hTake
  · exact threads_of_ne hThread h

/-- Until its result is taken, a call has a bounded number of steps. -/
theorem count_proceed_le (hIdle : s.threads t ≠ .idle) (hRun : run (step inner) s acts = some s')
    (hTake : .take t ∉ acts) : acts.count (.proceed t) ≤ (s.threads t).remaining := by
  have hInv : ∀ (x : WorkerThreads threadCount) act x', x.threads t ≠ .idle → act ≠ .take t →
      x.step inner act = some x' → x'.threads t ≠ .idle := by
    intro x act x' hx hAct hStep
    by_cases hProceed : act = .proceed t
    · subst hProceed
      exact (proceed_remaining hStep).1
    · rwa [threads_of_not_own hx hAct hProceed hStep]
  have hLower : ∀ (x : WorkerThreads threadCount) act x', x.threads t ≠ .idle → act ≠ .take t →
      x.step inner act = some x' → (x'.threads t).remaining +
        (if act == .proceed t then 1 else 0) ≤ (x.threads t).remaining := by
    intro x act x' hx hAct hStep
    by_cases hProceed : act = .proceed t
    · subst hProceed
      rw [if_pos (beq_self_eq_true _)]
      exact (proceed_remaining hStep).2
    · rw [threads_of_not_own hx hAct hProceed hStep, if_neg (by simpa using hProceed)]
      exact le_rfl
  have hOthers : ∀ act ∈ acts, act ≠ .take t := fun act hMem hAct => hTake (hAct ▸ hMem)
  exact (Nat.le_add_right _ _).trans
    (countP_add_le_of_lowers (fun act => act == .proceed t) (fun x => (x.threads t).remaining)
      hInv hLower hRun hIdle hOthers)

/-- The result is settled by the step of `acquire_locks`. -/
theorem acquire_willReturn (hPhase : s.threads t = .acquiring unit)
    (h : s.proceed inner t = some s') :
    (s'.threads t).WillReturn inner unit
      (if Disjoint unit.allAccounts s.pool.globalLocks then unit.outcome inner
        else .error .lockAcquisitionFailed) := by
  obtain ⟨phase, locked, hRule, rfl⟩ := proceed_cases h
  simp only [goto, Function.update_self]
  rw [hPhase] at hRule
  cases hRule with
  | acquire hFree =>
    rw [if_pos hFree]
    exact ⟨rfl, rfl⟩
  | reject hBusy =>
    rw [if_neg hBusy]
    exact ⟨rfl, rfl⟩

theorem Rule.willReturn {before after : ThreadPhase} {locked locked' : Finset Pubkey}
    (hRule : Rule inner locked before after locked') (hWill : before.WillReturn inner unit result)
    (hReturned : ∀ unit result, before ≠ .returned unit result) :
    after.WillReturn inner unit result := by
  cases hRule with
  | @execute running tx rest hInner =>
    obtain ⟨rfl, rfl⟩ := hWill
    refine ⟨rfl, ?_⟩
    rw [executeAll, hInner]
  | @fail running tx rest e hInner =>
    obtain ⟨rfl, rfl⟩ := hWill
    refine ⟨rfl, ?_⟩
    rw [executeAll, hInner]
    rfl
  | finish => exact hWill
  | release => exact hWill
  | take => exact absurd rfl (hReturned _ _)
  | _ => exact hWill.elim

theorem step_willReturn (hAct : act ≠ .take t) (hWill : (s.threads t).WillReturn inner unit result)
    (h : s.step inner act = some s') : (s'.threads t).WillReturn inner unit result := by
  by_cases hThread : act.thread = t
  · have hReturned : ∀ unit result, s.threads t ≠ .returned unit result := by
      intro unit result hPhase
      cases act with
      | call own workerId unit =>
        obtain rfl : own = t := hThread
        simp only [step, hPhase] at h
        cases h
      | proceed own =>
        obtain rfl : own = t := hThread
        cases (proceed_of_returned hPhase).symm.trans h
      | take own => exact hAct (congrArg Act.take hThread)
    obtain ⟨phase, locked, hRule, rfl⟩ := step_cases h
    subst hThread
    simp only [goto, Function.update_self]
    exact hRule.willReturn hWill hReturned
  · rw [threads_of_ne hThread h]
    exact hWill

end Fate

/-! ## Main results -/

/-- The calls of any number of threads on the workers of a pool.
* `locks`, `exclusive`: the shared set is the disjoint union of what the calls in progress have
  locked, also while one of them fails.
* `outcome`: a call is rejected exactly if a call in progress has one of its accounts at its
  `acquire_locks`; otherwise it returns what its transactions give, whatever the others do.
* `waitFree`, `bounded`: a call never waits for another one and has a bounded number of steps.
* `idle`: when no call is in progress, no account is locked. -/
structure Discipline (inner : Transaction → Except MevError Unit) (s : WorkerThreads threadCount) :
    Prop where
  locks : s.pool.globalLocks = Finset.univ.biUnion s.held
  exclusive : ∀ t t', t ≠ t' → Disjoint (s.held t) (s.held t')
  outcome : ∀ t unit s₁ acts s₂ unit' result, s.threads t = .acquiring unit →
    s.proceed inner t = some s₁ → run (step inner) s₁ acts = some s₂ → .take t ∉ acts →
    s₂.threads t = .returned unit' result →
      unit' = unit ∧ (s.FreeFor unit → result = unit.outcome inner) ∧
        (¬ s.FreeFor unit → result = .error .lockAcquisitionFailed)
  waitFree : ∀ t, 0 < (s.threads t).remaining → ∃ s', s.proceed inner t = some s'
  bounded : ∀ t acts s', s.threads t ≠ .idle → run (step inner) s acts = some s' →
    .take t ∉ acts → acts.count (.proceed t) ≤ (s.threads t).remaining
  idle : (∀ t, (s.threads t).remaining = 0) → s.pool.lockedAccountCount = 0

theorem reachable_discipline {inner : Transaction → Except MevError Unit} {workerCount : ℕ}
    {s : WorkerThreads threadCount}
    (h : Reachable (step inner) (new workerCount threadCount) s) : Discipline inner s := by
  have hInv : Inv s := h.invariant (fun _ _ _ hs hStep => step_inv hs hStep) new_inv
  refine ⟨hInv.family_eq_biUnion, fun t t' hNe => hInv.family_disjoint hNe, ?_,
    fun t => proceed_of_remaining, fun t acts s' => count_proceed_le, ?_⟩
  · intro t unit s₁ acts s₂ unit' result hPhase hAcquire hRun hTake hResult
    have hWill := invariant_along
      (I := fun x : WorkerThreads threadCount => (x.threads t).WillReturn inner unit
        (if Disjoint unit.allAccounts s.pool.globalLocks then unit.outcome inner
          else .error .lockAcquisitionFailed))
      (fun _ _ _ hWill hAct hStep => step_willReturn hAct hWill hStep) hRun
      (Along.of_forall fun act hMem hAct => hTake (hAct ▸ hMem))
      (acquire_willReturn hPhase hAcquire)
    rw [hResult] at hWill
    obtain ⟨rfl, rfl⟩ := hWill
    rw [hInv.freeFor_iff]
    exact ⟨rfl, fun hFree => if_pos hFree, fun hBusy => if_neg hBusy⟩
  · intro hIdle
    rw [WorkerPool.lockedAccountCount, Finset.card_eq_zero, hInv.family_eq_biUnion]
    apply Finset.eq_empty_of_forall_notMem
    intro acc hAcc
    obtain ⟨t, -, hHeld⟩ := Finset.mem_biUnion.mp hAcc
    have hNone := hIdle t
    rw [held] at hHeld
    cases hPhase : s.threads t with
    | executing unit rest =>
      rw [hPhase] at hNone
      cases hNone
    | releasing unit result =>
      rw [hPhase] at hNone
      cases hNone
    | _ =>
      rw [hPhase] at hHeld
      cases hHeld

/-- Transactions with the signature "bad" fail. -/
def failingInner (tx : Transaction) : Except MevError Unit :=
  if tx.signature = "bad" then .error (.schedulerError "bad") else .ok ()

/-- While a bundle is on its way to its failure, a transaction for one of its accounts is
rejected. -/
def failingBundle (t t' : Fin 2) : List (Act 2) :=
  let tx (id : String) := Transaction.new id [AccountMeta.new (Pubkey.filled 1) true] 1 1
  [.call t 0 (.bundle (Bundle.new 7 [tx "a", tx "bad", tx "b"] 1 "s")),
    .call t' 0 (.transaction (tx "c")), .proceed t, .proceed t', .proceed t, .proceed t]

theorem reachable_discipline_failingBundle : ∃ s,
    Reachable (step failingInner) (new 1 2) s ∧ s.pool.lockedAccountCount = 1 ∧
      Discipline failingInner s := by
  obtain ⟨s, hRun, hLocked⟩ : ∃ s, run (step failingInner) (new 1 2) (failingBundle 0 1) = some s ∧
      s.pool.lockedAccountCount = 1 := ⟨_, rfl, rfl⟩
  exact ⟨s, ⟨_, hRun⟩, hLocked, reachable_discipline ⟨_, hRun⟩⟩

end WorkerThreads

/-! ## Asynchronous workers as threads -/

/-- The point that the thread of a worker has reached. -/
def Phase.asThread : Phase → ThreadPhase
  | .receiving | .stopping | .stopped => .idle
  | .acquiring unit => .acquiring unit
  | .executing unit n =>
    .executing unit (unit.transactions.drop (unit.transactions.length - n))
  | .completing unit result => .returned unit result

namespace AsyncWorkerPool

variable {workerCount : ℕ}

/-- The synchronous pool with a thread for each worker. -/
def asThreads (pool : AsyncWorkerPool workerCount) : WorkerThreads workerCount where
  pool := { WorkerPool.new workerCount with globalLocks := pool.globalLocks }
  threads w := (pool.workers w).phase.asThread

theorem asThreads_spawn : (spawn workerCount).asThreads = WorkerThreads.new workerCount workerCount :=
  rfl

theorem asThreads_update (pool : AsyncWorkerPool workerCount) (w : Fin workerCount)
    (worker : AsyncWorker) (locked : Finset Pubkey) (completions : List WorkCompletion) :
    asThreads { pool with
      workers := Function.update pool.workers w worker
      globalLocks := locked
      completions } = pool.asThreads.goto w worker.phase.asThread locked := by
  have hThreads : (fun v => (Function.update pool.workers w worker v).phase.asThread) =
      Function.update pool.asThreads.threads w worker.phase.asThread := by
    funext v
    by_cases hv : v = w
    · subst hv
      simp
    · simp [hv, asThreads]
  rw [WorkerThreads.goto, ← hThreads]
  rfl

theorem getWorker_asThreads (pool : AsyncWorkerPool workerCount) (w : Fin workerCount) :
    pool.asThreads.pool.getWorker w = some ⟨w⟩ := by
  change ((List.range workerCount).map Worker.mk)[w.val]? = some ⟨w⟩
  rw [List.getElem?_map, List.getElem?_range w.isLt]
  rfl

/-- A worker's step as those of its thread: `release_locks` comes after the last transaction,
and a stop is no call. -/
theorem workStep_asThreads {pool pool' : AsyncWorkerPool workerCount} {w : Fin workerCount}
    (hBounded : ∀ w, (pool.workers w).phase.Bounded) (h : pool.workStep w = some pool') :
    Reachable (WorkerThreads.step executeTransactionInner) pool.asThreads pool'.asThreads := by
  obtain ⟨worker, locked, completion, hStep, rfl⟩ := workStep_cases h
  rw [asThreads_update]
  have hPhase : pool.asThreads.threads w = (pool.workers w).phase.asThread := rfl
  have hw := hBounded w
  -- A step that is none of the thread's.
  have hStay : worker.phase.asThread = pool.asThreads.threads w → locked = pool.globalLocks →
      Reachable (WorkerThreads.step executeTransactionInner) pool.asThreads
        (pool.asThreads.goto w worker.phase.asThread locked) := by
    intro hSame hLocked
    rw [hSame, hLocked, show pool.globalLocks = pool.asThreads.pool.globalLocks from rfl,
      WorkerThreads.goto_self]
    exact Reachable.refl _
  generalize pool.workers w = worker₀ at hStep hPhase hw
  cases hStep with
  | receive => exact .single (WorkerThreads.step_call hPhase (pool.getWorker_asThreads w))
  | shutdown => exact hStay hPhase.symm rfl
  | stop => exact hStay hPhase.symm rfl
  | @acquire unit queue _ hFree =>
    rw [Phase.asThread, unit.length_transactions, Nat.sub_self, List.drop_zero]
    exact WorkerThreads.reachable_proceed (WorkerThreads.proceed_acquire hPhase hFree)
  | reject hBusy => exact WorkerThreads.reachable_proceed (WorkerThreads.proceed_reject hPhase hBusy)
  | @sleep unit n queue =>
    have hLe : n + 1 ≤ unit.transactions.length := by
      rw [unit.length_transactions]
      exact hw
    have hDrop : unit.transactions.drop (unit.transactions.length - (n + 1)) =
        unit.transactions[unit.transactions.length - (n + 1)] ::
          unit.transactions.drop (unit.transactions.length - n) := by
      rw [List.drop_eq_getElem_cons (by omega)]
      congr 2
      omega
    rw [Phase.asThread, hDrop] at hPhase
    exact WorkerThreads.reachable_proceed (WorkerThreads.proceed_execute hPhase rfl)
  | @release unit queue =>
    rw [Phase.asThread, Nat.sub_zero, List.drop_length] at hPhase
    have hReleasing : (pool.asThreads.goto w (.releasing unit (.ok ())) pool.globalLocks).threads w =
        .releasing unit (.ok ()) := Function.update_self _ _ _
    have hRelease : (pool.asThreads.goto w (.releasing unit (.ok ())) pool.globalLocks).proceed
        executeTransactionInner w = some _ := WorkerThreads.proceed_release hReleasing
    rw [WorkerThreads.goto_goto] at hRelease
    exact Reachable.trans (WorkerThreads.reachable_proceed (WorkerThreads.proceed_finish hPhase))
      (WorkerThreads.reachable_proceed hRelease)
  | complete => exact .single (WorkerThreads.step_take hPhase)

/-- From any state that the asynchronous pool reaches, whatever its workers and clients do next
the synchronous pool can do, with the same locks and the same result of each unit. -/
theorem reachable_asThreads {pool pool' : AsyncWorkerPool workerCount}
    (h : Reachable step (spawn workerCount) pool) (hNext : Reachable step pool pool') :
    Reachable (WorkerThreads.step executeTransactionInner) pool.asThreads pool'.asThreads := by
  have hBounded : ∀ w, (pool.workers w).phase.Bounded :=
    h.invariant (I := fun pool => ∀ w, (pool.workers w).phase.Bounded)
      (fun _ _ _ hs hStep => step_bounded hs hStep) fun _ => trivial
  refine hNext.simulate_of_invariant (I := fun pool => ∀ w, (pool.workers w).phase.Bounded)
    asThreads (fun _ _ _ hs hStep => step_bounded hs hStep) ?_ hBounded
  intro x act x' hx hStep
  by_cases hWork : ∃ w, act = .work w
  · obtain ⟨w, rfl⟩ := hWork
    exact workStep_asThreads hx hStep
  · obtain ⟨hLocks, hPhase⟩ := client_frame (fun w hw => hWork ⟨w, hw⟩) hStep
    have hSame : x'.asThreads = x.asThreads := by
      rw [asThreads, asThreads, hLocks]
      congr 1
      funext w
      rw [hPhase w]
    rw [hSame]
    exact Reachable.refl _

theorem reachable_asThreads_bundleBesideTxs :
    let pool := ((run step (spawn 2) (Ledger.bundleBesideTxs 0 1)).getD (spawn 2))
    Reachable (WorkerThreads.step executeTransactionInner) (WorkerThreads.new 2 2) pool.asThreads :=
  reachable_asThreads (Reachable.refl _) ⟨Ledger.bundleBesideTxs 0 1, by rfl⟩

end AsyncWorkerPool

end Blunder
