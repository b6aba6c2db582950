import Blunder.Core.Basic
import Blunder.Foundation.LockTable
import Blunder.Foundation.Transition

/-!
# Asynchronous workers and their pool

Each worker takes items from its own queue; it locks the accounts of a unit in the
set shared by all workers, sleeps, unlocks them and sends a completion. A unit whose
accounts are locked by another worker fails at once. `AsyncWorker.runStep` is one step
of `AsyncWorker::run` between two points where other tasks may run; `acquire_locks` and
`release_locks` hold the `RwLock` of the shared set and are one step each.

A pool consists of the workers, the shared set, the completion channel and the counter.
Its labels are the steps of the workers and the primitive operations of any number of
clients, in any order.

* `AsyncWorker.runStep_iff`: the transition rules of a worker.
* `AsyncWorkerPool.Inv`, `AsyncWorkerPool.step_inv`: the shared set is that of the
  executing units, no two of which share an account.
* `AsyncWorkerPool.reachable_lockDiscipline`: what this means for every reachable pool.
-/

namespace Blunder

open Foundation.LockTable Foundation.Transition

/-! ## Items and completions -/

inductive WorkItem
  | transaction (tx : Transaction)
  | bundle (bundle : Bundle)
  | shutdown
deriving DecidableEq

/-- The unit of an item. -/
def WorkItem.unit? : WorkItem → Option SchedulableUnit
  | .transaction tx => some (.transaction tx)
  | .bundle b => some (.bundle b)
  | .shutdown => none

/-- The item for a unit. -/
def WorkItem.ofUnit : SchedulableUnit → WorkItem
  | .transaction tx => .transaction tx
  | .bundle b => .bundle b

@[simp] theorem WorkItem.unit?_ofUnit (unit : SchedulableUnit) :
    (WorkItem.ofUnit unit).unit? = some unit := by
  cases unit <;> rfl

structure WorkCompletion where
  workerId : ℕ
  unitId : String
  success : Bool
  error : Option String
deriving DecidableEq

/-- The completion for the result of a unit. -/
def WorkCompletion.of (workerId : ℕ) (unit : SchedulableUnit) :
    Except MevError Unit → WorkCompletion
  | .ok () => { workerId, unitId := unit.unitId, success := true, error := none }
  | .error e => { workerId, unitId := unit.unitId, success := false, error := some e.display }

/-! ## Workers -/

/-- Where a worker is in its loop. -/
inductive Phase
  | receiving
  | acquiring (unit : SchedulableUnit)
  | executing (unit : SchedulableUnit) (sleeps : ℕ)
  | completing (unit : SchedulableUnit) (result : Except MevError Unit)
  | stopping
  | stopped

structure AsyncWorker where
  queue : List WorkItem
  phase : Phase

namespace AsyncWorker

/-- `execute_transaction` sleeps once, `execute_bundle` once for each transaction. -/
def sleeps : SchedulableUnit → ℕ
  | .transaction _ => 1
  | .bundle bundle => bundle.transactions.length

def acquireLocks (locked accounts : Finset Pubkey) : Finset Pubkey × Except MevError Unit :=
  if ∃ acc ∈ accounts, acc ∈ locked then (locked, .error .lockAcquisitionFailed)
  else (locked ∪ accounts, .ok ())

def releaseLocks (locked accounts : Finset Pubkey) : Finset Pubkey := locked \ accounts

/-- One step of `AsyncWorker::run`: the worker and the shared set after it, and the
completion it sends. A worker that has to wait for an item has no step. Leaving the
loop drops the receiver and the items left in it. -/
def runStep (id : ℕ) (worker : AsyncWorker) (locked : Finset Pubkey) :
    Option (AsyncWorker × Finset Pubkey × Option WorkCompletion) :=
  match worker.phase with
  | .receiving =>
    match worker.queue with
    | [] => none
    | .transaction tx :: queue => some (⟨queue, .acquiring (.transaction tx)⟩, locked, none)
    | .bundle bundle :: queue => some (⟨queue, .acquiring (.bundle bundle)⟩, locked, none)
    | .shutdown :: queue => some (⟨queue, .stopping⟩, locked, none)
  | .acquiring unit =>
    match acquireLocks locked unit.allAccounts with
    | (locked, .ok ()) => some ({ worker with phase := .executing unit (sleeps unit) }, locked, none)
    | (locked, .error e) => some ({ worker with phase := .completing unit (.error e) }, locked, none)
  | .executing unit (n + 1) => some ({ worker with phase := .executing unit n }, locked, none)
  | .executing unit 0 =>
    some ({ worker with phase := .completing unit (.ok ()) },
      releaseLocks locked unit.allAccounts, none)
  | .completing unit result =>
    some ({ worker with phase := .receiving }, locked, some (.of id unit result))
  | .stopping => some (⟨[], .stopped⟩, locked, none)
  | .stopped => none

/-- The transition rules of a worker. -/
inductive Step (id : ℕ) :
    AsyncWorker → Finset Pubkey → AsyncWorker → Finset Pubkey → Option WorkCompletion → Prop
  | receive {item unit queue locked} (hItem : item.unit? = some unit) :
    Step id ⟨item :: queue, .receiving⟩ locked ⟨queue, .acquiring unit⟩ locked none
  | shutdown {queue locked} :
    Step id ⟨.shutdown :: queue, .receiving⟩ locked ⟨queue, .stopping⟩ locked none
  | acquire {unit queue locked} (hFree : Disjoint unit.allAccounts locked) :
    Step id ⟨queue, .acquiring unit⟩ locked
      ⟨queue, .executing unit (sleeps unit)⟩ (locked ∪ unit.allAccounts) none
  | reject {unit queue locked} (hBusy : ¬ Disjoint unit.allAccounts locked) :
    Step id ⟨queue, .acquiring unit⟩ locked
      ⟨queue, .completing unit (.error .lockAcquisitionFailed)⟩ locked none
  | sleep {unit n queue locked} :
    Step id ⟨queue, .executing unit (n + 1)⟩ locked ⟨queue, .executing unit n⟩ locked none
  | release {unit queue locked} :
    Step id ⟨queue, .executing unit 0⟩ locked
      ⟨queue, .completing unit (.ok ())⟩ (locked \ unit.allAccounts) none
  | complete {unit result queue locked} :
    Step id ⟨queue, .completing unit result⟩ locked ⟨queue, .receiving⟩ locked
      (some (.of id unit result))
  | stop {queue locked} : Step id ⟨queue, .stopping⟩ locked ⟨[], .stopped⟩ locked none

theorem acquireLocks_of_disjoint {locked accounts : Finset Pubkey} (h : Disjoint accounts locked) :
    acquireLocks locked accounts = (locked ∪ accounts, .ok ()) := by
  apply if_neg
  rintro ⟨acc, hAcc, hLocked⟩
  exact Finset.disjoint_left.mp h hAcc hLocked

theorem acquireLocks_of_not_disjoint {locked accounts : Finset Pubkey}
    (h : ¬ Disjoint accounts locked) :
    acquireLocks locked accounts = (locked, .error .lockAcquisitionFailed) := by
  obtain ⟨acc, hAcc, hLocked⟩ := Finset.not_disjoint_iff.mp h
  exact if_pos ⟨acc, hAcc, hLocked⟩

theorem runStep_iff {id : ℕ} {worker worker' : AsyncWorker} {locked locked' : Finset Pubkey}
    {completion : Option WorkCompletion} :
    runStep id worker locked = some (worker', locked', completion) ↔
      Step id worker locked worker' locked' completion := by
  constructor
  · intro h
    obtain ⟨queue, phase⟩ := worker
    cases phase with
    | receiving =>
      cases queue with
      | nil => cases h
      | cons item queue =>
        cases item with
        | transaction tx =>
          cases h
          exact Step.receive rfl
        | bundle bundle =>
          cases h
          exact Step.receive rfl
        | shutdown =>
          cases h
          exact Step.shutdown
    | acquiring unit =>
      by_cases hFree : Disjoint unit.allAccounts locked
      · simp only [runStep, acquireLocks_of_disjoint hFree] at h
        cases h
        exact Step.acquire hFree
      · simp only [runStep, acquireLocks_of_not_disjoint hFree] at h
        cases h
        exact Step.reject hFree
    | executing unit n =>
      cases n with
      | zero =>
        cases h
        exact Step.release
      | succ n =>
        cases h
        exact Step.sleep
    | completing unit result =>
      cases h
      exact Step.complete
    | stopping =>
      cases h
      exact Step.stop
    | stopped => cases h
  · intro h
    cases h with
    | @receive item unit queue _ hItem =>
      cases item with
      | shutdown => cases hItem
      | transaction tx =>
        cases hItem
        rfl
      | bundle bundle =>
        cases hItem
        rfl
    | acquire hFree => simp only [runStep, acquireLocks_of_disjoint hFree]
    | reject hBusy => simp only [runStep, acquireLocks_of_not_disjoint hBusy]
    | _ => rfl

theorem Step.acquire_of_phase {id : ℕ} {worker : AsyncWorker} {unit : SchedulableUnit}
    {locked : Finset Pubkey} (hPhase : worker.phase = .acquiring unit)
    (hFree : Disjoint unit.allAccounts locked) :
    Step id worker locked ⟨worker.queue, .executing unit (sleeps unit)⟩
      (locked ∪ unit.allAccounts) none := by
  obtain ⟨queue, phase⟩ := worker
  cases hPhase
  exact Step.acquire hFree

theorem Step.reject_of_phase {id : ℕ} {worker : AsyncWorker} {unit : SchedulableUnit}
    {locked : Finset Pubkey} (hPhase : worker.phase = .acquiring unit)
    (hBusy : ¬ Disjoint unit.allAccounts locked) :
    Step id worker locked ⟨worker.queue, .completing unit (.error .lockAcquisitionFailed)⟩
      locked none := by
  obtain ⟨queue, phase⟩ := worker
  cases hPhase
  exact Step.reject hBusy

end AsyncWorker

/-- The accounts that a worker has locked. -/
def Phase.held : Phase → Finset Pubkey
  | .executing unit _ => unit.allAccounts
  | _ => ∅

/-! ## The pool -/

structure AsyncWorkerPool (workerCount : ℕ) where
  workers : Fin workerCount → AsyncWorker
  globalLocks : Finset Pubkey
  completions : List WorkCompletion
  pendingWork : UInt64

namespace AsyncWorkerPool

variable {workerCount : ℕ}

def spawn (workerCount : ℕ) : AsyncWorkerPool workerCount where
  workers := fun _ => ⟨[], .receiving⟩
  globalLocks := ∅
  completions := []
  pendingWork := 0

/-- The receiver of a worker exists until the worker has left its loop. -/
def isClosed (pool : AsyncWorkerPool workerCount) (w : Fin workerCount) : Bool :=
  match (pool.workers w).phase with
  | .stopped => true
  | _ => false

def enqueue (pool : AsyncWorkerPool workerCount) (w : Fin workerCount) (work : WorkItem) :
    AsyncWorkerPool workerCount :=
  let worker := pool.workers w
  { pool with
    workers := Function.update pool.workers w { worker with queue := worker.queue ++ [work] } }

/-- The channel send of `send_work`; the counter is a step of its own. -/
def send (pool : AsyncWorkerPool workerCount) (workerId : ℕ) (work : WorkItem) :
    Except MevError (AsyncWorkerPool workerCount) :=
  if h : workerId < workerCount then
    if pool.isClosed ⟨workerId, h⟩ then .error (.schedulerError "Worker channel closed")
    else .ok (pool.enqueue ⟨workerId, h⟩ work)
  else .error (.schedulerError "Invalid worker ID")

/-- `pending_work.fetch_add(1)`, which `send_work` skips for a shutdown. -/
def countPending (pool : AsyncWorkerPool workerCount) : AsyncWorkerPool workerCount :=
  { pool with pendingWork := pool.pendingWork + 1 }

/-- `pending_work.fetch_sub(1)`. -/
def uncountPending (pool : AsyncWorkerPool workerCount) : AsyncWorkerPool workerCount :=
  { pool with pendingWork := pool.pendingWork - 1 }

/-- A successful `recv` on the completion channel. -/
def receiveCompletion (pool : AsyncWorkerPool workerCount) :
    Option (WorkCompletion × AsyncWorkerPool workerCount) :=
  match pool.completions with
  | [] => none
  | completion :: completions => some (completion, { pool with completions })

/-- A step of one worker. -/
def workStep (pool : AsyncWorkerPool workerCount) (w : Fin workerCount) :
    Option (AsyncWorkerPool workerCount) :=
  (AsyncWorker.runStep w (pool.workers w) pool.globalLocks).map fun (worker, locked, completion) =>
    { pool with
      workers := Function.update pool.workers w worker
      globalLocks := locked
      completions := pool.completions ++ completion.toList }

/-- The steps of the workers and the primitive operations of the clients. -/
inductive Act (workerCount : ℕ)
  | work (w : Fin workerCount)
  | send (workerId : ℕ) (work : WorkItem)
  | countPending
  | receiveCompletion
  | uncountPending

def step (pool : AsyncWorkerPool workerCount) : Act workerCount → Option (AsyncWorkerPool workerCount)
  | .work w => pool.workStep w
  | .send workerId work =>
    match pool.send workerId work with
    | .ok pool => some pool
    | .error _ => some pool
  | .countPending => some pool.countPending
  | .receiveCompletion => pool.receiveCompletion.map Prod.snd
  | .uncountPending => some pool.uncountPending

/-- What each worker has locked. -/
def held (pool : AsyncWorkerPool workerCount) (w : Fin workerCount) : Finset Pubkey :=
  (pool.workers w).phase.held

section Steps

variable {pool pool' : AsyncWorkerPool workerCount} {w : Fin workerCount}

theorem workStep_cases (h : pool.workStep w = some pool') :
    ∃ worker locked completion,
      AsyncWorker.Step w (pool.workers w) pool.globalLocks worker locked completion ∧
      pool' = { pool with
        workers := Function.update pool.workers w worker
        globalLocks := locked
        completions := pool.completions ++ completion.toList } := by
  obtain ⟨⟨worker, locked, completion⟩, hRun, rfl⟩ := Option.map_eq_some_iff.mp h
  exact ⟨worker, locked, completion, AsyncWorker.runStep_iff.mp hRun, rfl⟩

theorem workStep_of_step {worker : AsyncWorker} {locked : Finset Pubkey}
    {completion : Option WorkCompletion}
    (h : AsyncWorker.Step w (pool.workers w) pool.globalLocks worker locked completion) :
    pool.workStep w = some { pool with
      workers := Function.update pool.workers w worker
      globalLocks := locked
      completions := pool.completions ++ completion.toList } := by
  rw [workStep, AsyncWorker.runStep_iff.mpr h]
  rfl

theorem phase_enqueue (work : WorkItem) (v : Fin workerCount) :
    ((pool.enqueue w work).workers v).phase = (pool.workers v).phase := by
  unfold enqueue
  by_cases hv : v = w
  · subst hv
    simp
  · simp [hv]

/-- A client changes neither a phase nor the shared set. -/
theorem client_frame {act : Act workerCount} (hClient : ∀ w, act ≠ .work w)
    (h : pool.step act = some pool') :
    pool'.globalLocks = pool.globalLocks ∧
      ∀ v, (pool'.workers v).phase = (pool.workers v).phase := by
  cases act with
  | work w => exact absurd rfl (hClient w)
  | send workerId work =>
    simp only [step, send] at h
    split at h
    · rename_i hSend
      split at hSend
      · split at hSend
        · cases hSend
        · cases hSend
          cases h
          exact ⟨rfl, fun v => phase_enqueue work v⟩
      · cases hSend
    · cases h
      exact ⟨rfl, fun _ => rfl⟩
  | countPending =>
    cases h
    exact ⟨rfl, fun _ => rfl⟩
  | receiveCompletion =>
    obtain ⟨⟨completion, rest⟩, hReceive, rfl⟩ := Option.map_eq_some_iff.mp h
    rw [receiveCompletion] at hReceive
    split at hReceive
    · cases hReceive
    · cases hReceive
      exact ⟨rfl, fun _ => rfl⟩
  | uncountPending =>
    cases h
    exact ⟨rfl, fun _ => rfl⟩

end Steps

/-! ## The invariant -/

/-- The shared set belongs to the executing units, each account to one of them. -/
def Inv (pool : AsyncWorkerPool workerCount) : Prop := Exclusive pool.globalLocks (family pool.held)

theorem spawn_inv : Inv (spawn workerCount) := by
  intro acc
  simp [spawn, family, held, Phase.held, ownerCount]

/-- The invariant reads the phases and the shared set only. -/
theorem Inv.of_phase_eq {pool pool' : AsyncWorkerPool workerCount} (h : Inv pool)
    (hLocks : pool'.globalLocks = pool.globalLocks)
    (hPhase : ∀ v, (pool'.workers v).phase = (pool.workers v).phase) : Inv pool' := by
  have hHeld : pool'.held = pool.held := funext fun v => congrArg Phase.held (hPhase v)
  unfold Inv
  rw [hLocks, hHeld]
  exact h

theorem held_update {pool : AsyncWorkerPool workerCount} {w : Fin workerCount}
    {worker : AsyncWorker} {locked : Finset Pubkey} {completions : List WorkCompletion} :
    { pool with
      workers := Function.update pool.workers w worker
      globalLocks := locked
      completions }.held = Function.update pool.held w worker.phase.held := by
  funext v
  by_cases hv : v = w
  · subst hv
    simp [held]
  · simp [held, hv]

theorem workStep_inv {pool pool' : AsyncWorkerPool workerCount} {w : Fin workerCount}
    (hInv : Inv pool) (h : pool.workStep w = some pool') : Inv pool' := by
  obtain ⟨worker, locked, completion, hStep, rfl⟩ := workStep_cases h
  rw [Inv, held_update]
  -- A rule that moves no lock leaves the holders as they are.
  have hQuiet : locked = pool.globalLocks → worker.phase.held = pool.held w →
      Exclusive locked (family (Function.update pool.held w worker.phase.held)) := by
    intro hLocked hHeld
    rw [hLocked, hHeld, Function.update_eq_self]
    exact hInv
  have hHeld : pool.held w = (pool.workers w).phase.held := rfl
  generalize pool.workers w = worker₀ at hStep hHeld
  cases hStep with
  | acquire hFree => exact hInv.family_acquire hHeld hFree
  | @release unit queue =>
    have hReleased := hInv.family_release w
    rw [hHeld] at hReleased
    exact hReleased
  | _ => exact hQuiet rfl hHeld.symm

theorem step_inv {pool pool' : AsyncWorkerPool workerCount} {act : Act workerCount}
    (hInv : Inv pool) (h : pool.step act = some pool') : Inv pool' := by
  by_cases hWork : ∃ w, act = .work w
  · obtain ⟨w, rfl⟩ := hWork
    exact workStep_inv hInv h
  · obtain ⟨hLocks, hPhase⟩ := client_frame (fun w hw => hWork ⟨w, hw⟩) h
    exact hInv.of_phase_eq hLocks hPhase

theorem reachable_inv {pool : AsyncWorkerPool workerCount}
    (h : Reachable step (spawn workerCount) pool) : Inv pool :=
  h.invariant (fun _ _ _ hInv hStep => step_inv hInv hStep) spawn_inv

/-! ## The fate of one unit -/

/-- No executing unit shares an account with `unit`. -/
def FreeFor (pool : AsyncWorkerPool workerCount) (unit : SchedulableUnit) : Prop :=
  ∀ v running n, (pool.workers v).phase = .executing running n →
    Disjoint unit.allAccounts running.allAccounts

theorem held_eq_empty {pool : AsyncWorkerPool workerCount} {v : Fin workerCount}
    (h : ∀ unit n, (pool.workers v).phase ≠ .executing unit n) : pool.held v = ∅ := by
  unfold held
  cases hPhase : (pool.workers v).phase with
  | executing unit n => exact absurd hPhase (h unit n)
  | _ => rfl

theorem Inv.freeFor_iff {pool : AsyncWorkerPool workerCount} (hInv : Inv pool)
    (unit : SchedulableUnit) : pool.FreeFor unit ↔ Disjoint unit.allAccounts pool.globalLocks := by
  rw [hInv.family_eq_biUnion, Finset.disjoint_biUnion_right]
  constructor
  · intro hFree v _
    unfold held
    cases hPhase : (pool.workers v).phase with
    | executing running n => exact hFree v running n hPhase
    | _ => exact Finset.disjoint_empty_right _
  · intro hFree v running n hPhase
    have hv := hFree v (Finset.mem_univ v)
    rw [held, hPhase] at hv
    exact hv

/-- The step that `acquire_locks` takes, by whether an executing unit is in the way. -/
theorem acquire_cases {pool pool' : AsyncWorkerPool workerCount} {w : Fin workerCount}
    {unit : SchedulableUnit} (hInv : Inv pool) (hPhase : (pool.workers w).phase = .acquiring unit)
    (h : pool.workStep w = some pool') :
    pool.FreeFor unit ∧ (pool'.workers w).phase = .executing unit (AsyncWorker.sleeps unit) ∧
        pool'.globalLocks = pool.globalLocks ∪ unit.allAccounts ∨
      ¬ pool.FreeFor unit ∧
        (pool'.workers w).phase = .completing unit (.error .lockAcquisitionFailed) ∧
        pool'.globalLocks = pool.globalLocks := by
  obtain ⟨worker, locked, completion, hStep, rfl⟩ := workStep_cases h
  rw [hInv.freeFor_iff]
  generalize pool.workers w = worker₀ at hStep hPhase
  cases hStep with
  | acquire hFree =>
    cases hPhase
    exact Or.inl ⟨hFree, by simp only [Function.update_self], rfl⟩
  | reject hBusy =>
    cases hPhase
    exact Or.inr ⟨hBusy, by simp only [Function.update_self], rfl⟩
  | _ => cases hPhase

/-- The worker sends the completion of its unit. -/
def Completes (w : Fin workerCount) (pool : AsyncWorkerPool workerCount) (act : Act workerCount) :
    Prop :=
  act = .work w ∧ ∃ unit result, (pool.workers w).phase = .completing unit result

theorem phase_of_ne {pool pool' : AsyncWorkerPool workerCount} {w : Fin workerCount}
    {act : Act workerCount} (hAct : act ≠ .work w) (h : pool.step act = some pool') :
    (pool'.workers w).phase = (pool.workers w).phase := by
  by_cases hWork : ∃ v, act = .work v
  · obtain ⟨v, rfl⟩ := hWork
    obtain ⟨worker, locked, completion, -, rfl⟩ := workStep_cases h
    have hvw : w ≠ v := by
      rintro rfl
      exact hAct rfl
    simp [hvw]
  · exact (client_frame (fun v hv => hWork ⟨v, hv⟩) h).2 w

/-- A unit that acquired its accounts stays on its way to a success, one that failed
to stays at its failure, until its completion is sent. -/
theorem result_kept {pool pool' : AsyncWorkerPool workerCount} {w : Fin workerCount}
    {unit : SchedulableUnit} {act : Act workerCount} (hAct : ¬ Completes w pool act)
    (h : pool.step act = some pool') :
    ((∃ n, (pool.workers w).phase = .executing unit n) ∨
        (pool.workers w).phase = .completing unit (.ok ()) →
      (∃ n, (pool'.workers w).phase = .executing unit n) ∨
        (pool'.workers w).phase = .completing unit (.ok ())) ∧
    ∀ e, (pool.workers w).phase = .completing unit (.error e) →
      (pool'.workers w).phase = .completing unit (.error e) := by
  by_cases hWork : act = .work w
  · subst hWork
    have hNotCompleting : ∀ result, (pool.workers w).phase ≠ .completing unit result :=
      fun result hPhase => hAct ⟨rfl, unit, result, hPhase⟩
    refine ⟨?_, fun e hPhase => absurd hPhase (hNotCompleting _)⟩
    rintro (⟨n, hPhase⟩ | hPhase)
    · obtain ⟨worker, locked, completion, hStep, rfl⟩ := workStep_cases h
      generalize pool.workers w = worker₀ at hStep hPhase
      simp only [Function.update_self]
      cases hStep with
      | @sleep _ n =>
        cases hPhase
        exact Or.inl ⟨n, rfl⟩
      | release =>
        cases hPhase
        exact Or.inr rfl
      | _ => cases hPhase
    · exact absurd hPhase (hNotCompleting _)
  · rw [phase_of_ne hWork h]
    exact ⟨id, fun _ => id⟩

/-- From the step of `acquire_locks` to the completion: the unit succeeds exactly when
no executing unit was in its way at that step. -/
theorem result_iff_free {pool pool₁ pool₂ : AsyncWorkerPool workerCount} {w : Fin workerCount}
    {unit unit' : SchedulableUnit} {result : Except MevError Unit} {acts : List (Act workerCount)}
    (hInv : Inv pool) (hPhase : (pool.workers w).phase = .acquiring unit)
    (hAcquire : pool.workStep w = some pool₁) (hRun : run step pool₁ acts = some pool₂)
    (hAlong : Along step (fun pool act => ¬ Completes w pool act) pool₁ acts)
    (hResult : (pool₂.workers w).phase = .completing unit' result) :
    unit' = unit ∧ (result = .ok () ↔ pool.FreeFor unit) := by
  rcases acquire_cases hInv hPhase hAcquire with ⟨hFree, hExecuting, -⟩ | ⟨hBusy, hFailed, -⟩
  · have hKept := invariant_along (I := fun pool => (∃ n, (pool.workers w).phase =
        .executing unit n) ∨ (pool.workers w).phase = .completing unit (.ok ()))
      (fun _ _ _ hI hAct hStep => (result_kept hAct hStep).1 hI) hRun hAlong
      (Or.inl ⟨_, hExecuting⟩)
    rw [hResult] at hKept
    rcases hKept with ⟨n, hPhase'⟩ | hPhase'
    · cases hPhase'
    · cases hPhase'
      exact ⟨rfl, iff_of_true rfl hFree⟩
  · have hKept := invariant_along (I := fun pool => (pool.workers w).phase =
        .completing unit (.error .lockAcquisitionFailed))
      (fun _ _ _ hI hAct hStep => (result_kept hAct hStep).2 _ hI) hRun hAlong hFailed
    rw [hResult] at hKept
    cases hKept
    exact ⟨rfl, iff_of_false (fun h => by cases h) hBusy⟩

/-- Only the release of an executing unit takes accounts out of the shared set, and it
takes its own. -/
theorem release_of_removed {pool pool' : AsyncWorkerPool workerCount} {act : Act workerCount}
    (h : pool.step act = some pool') {acc : Pubkey} (hAcc : acc ∈ pool.globalLocks)
    (hRemoved : acc ∉ pool'.globalLocks) :
    ∃ w unit, act = .work w ∧ (pool.workers w).phase = .executing unit 0 ∧
      acc ∈ unit.allAccounts := by
  by_cases hWork : ∃ w, act = .work w
  · obtain ⟨w, rfl⟩ := hWork
    obtain ⟨worker, locked, completion, hStep, rfl⟩ := workStep_cases h
    refine ⟨w, ?_⟩
    generalize pool.workers w = worker₀ at hStep
    cases hStep with
    | acquire hFree => exact absurd (Finset.mem_union_left _ hAcc) hRemoved
    | @release unit queue =>
      refine ⟨unit, rfl, rfl, ?_⟩
      by_contra hOther
      exact hRemoved (Finset.mem_sdiff.mpr ⟨hAcc, hOther⟩)
    | _ => exact absurd hAcc hRemoved
  · rw [(client_frame (fun w hw => hWork ⟨w, hw⟩) h).1] at hRemoved
    exact absurd hAcc hRemoved

/-! ## Main result -/

/-- How the workers of a pool use the shared set. -/
structure LockDiscipline (pool : AsyncWorkerPool workerCount) : Prop where
  /-- The shared set is the union of the account sets of the executing units. -/
  locks_eq : pool.globalLocks = Finset.univ.biUnion pool.held
  /-- Two workers never execute units with a common account. -/
  disjoint : ∀ i j, i ≠ j → Disjoint (pool.held i) (pool.held j)
  /-- A failing acquire leaves the shared set as it was. -/
  acquire : ∀ w unit pool', (pool.workers w).phase = .acquiring unit →
    pool.workStep w = some pool' →
      pool.FreeFor unit ∧ (pool'.workers w).phase = .executing unit (AsyncWorker.sleeps unit) ∧
          pool'.globalLocks = pool.globalLocks ∪ unit.allAccounts ∨
        ¬ pool.FreeFor unit ∧
          (pool'.workers w).phase = .completing unit (.error .lockAcquisitionFailed) ∧
          pool'.globalLocks = pool.globalLocks
  /-- An account leaves the shared set only with the unit that acquired it. -/
  release : ∀ act pool' acc, pool.step act = some pool' → acc ∈ pool.globalLocks →
    acc ∉ pool'.globalLocks → ∃ w unit, act = .work w ∧
      (pool.workers w).phase = .executing unit 0 ∧ acc ∈ unit.allAccounts
  /-- A unit succeeds exactly when no unit executing at its acquire shares an account. -/
  success : ∀ w unit pool₁ acts pool₂ unit' result, (pool.workers w).phase = .acquiring unit →
    pool.workStep w = some pool₁ → run step pool₁ acts = some pool₂ →
    Along step (fun pool act => ¬ Completes w pool act) pool₁ acts →
    (pool₂.workers w).phase = .completing unit' result →
      unit' = unit ∧ (result = .ok () ↔ pool.FreeFor unit)
  /-- The completion carries the result. -/
  completion : ∀ w unit result pool', (pool.workers w).phase = .completing unit result →
    pool.workStep w = some pool' →
      pool'.completions = pool.completions ++ [.of w unit result]
  /-- The shared set is empty when no unit is executing. -/
  idle : (∀ w unit n, (pool.workers w).phase ≠ .executing unit n) → pool.globalLocks = ∅

theorem reachable_lockDiscipline {pool : AsyncWorkerPool workerCount}
    (h : Reachable step (spawn workerCount) pool) : LockDiscipline pool := by
  have hInv := reachable_inv h
  refine ⟨hInv.family_eq_biUnion, fun i j hij => hInv.family_disjoint hij, ?_, ?_, ?_, ?_, ?_⟩
  · intro w unit pool' hPhase hStep
    exact acquire_cases hInv hPhase hStep
  · intro act pool' acc hStep hAcc hRemoved
    exact release_of_removed hStep hAcc hRemoved
  · intro w unit pool₁ acts pool₂ unit' result hPhase hAcquire hRun hAlong hResult
    exact result_iff_free hInv hPhase hAcquire hRun hAlong hResult
  · intro w unit result pool' hPhase hStep
    obtain ⟨worker, locked, completion, hRule, rfl⟩ := workStep_cases hStep
    generalize pool.workers w = worker₀ at hRule hPhase
    cases hRule with
    | complete =>
      cases hPhase
      rfl
    | _ => cases hPhase
  · intro hNone
    apply Finset.eq_empty_of_forall_notMem
    intro acc hAcc
    obtain ⟨v, hv⟩ := hInv.family_mem_iff.mp hAcc
    rw [held_eq_empty (hNone v)] at hv
    exact Finset.notMem_empty acc hv

/-- Two workers get a transaction for the same account each. -/
def twoConflictingTxs : List (Act 2) :=
  let tx := Transaction.new "tx" [AccountMeta.new (Pubkey.filled 1) true] 1 1
  [.send 0 (.transaction tx), .send 1 (.transaction tx), .work 0, .work 0, .work 1, .work 1]

theorem reachable_lockDiscipline_twoConflictingTxs :
    LockDiscipline ((run step (spawn 2) twoConflictingTxs).getD (spawn 2)) :=
  reachable_lockDiscipline ⟨twoConflictingTxs, by rfl⟩

end AsyncWorkerPool

end Blunder
