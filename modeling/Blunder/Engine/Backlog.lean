import Blunder.Engine.Dispatch
import Mathlib.Algebra.BigOperators.Fin

/-!
# What a pool still has to complete

The backlog of a worker are the units that it completes if nothing more is sent to it:
the one it is busy with and those of its queue before the first shutdown. A worker
completes its backlog in order, one unit in a bounded number of steps.

* `AsyncWorker.Step.backlog_eq`: with each completion the backlog loses its first unit,
  and in no other way.
* `AsyncWorker.backlog_push`: an item joins the backlog unless it comes behind a shutdown.
* `AsyncWorker.Step.effort_lt`: every step of a worker uses up effort, which only sending
  adds to.
* `AsyncWorkerPool.inFlight`: the units of all backlogs with the completions that nobody
  has received.
-/

namespace Blunder

open Foundation.Transition

/-! ## One worker -/

namespace AsyncWorker

/-- The units of a queue that come before the first shutdown. -/
def ahead : List WorkItem → List SchedulableUnit
  | [] => []
  | item :: items =>
    match item.unit? with
    | some unit => unit :: ahead items
    | none => []

/-- The units that a worker completes if nothing more is sent to it. -/
def backlog (worker : AsyncWorker) : List SchedulableUnit :=
  match worker.phase with
  | .receiving => ahead worker.queue
  | .acquiring unit => unit :: ahead worker.queue
  | .executing unit _ => unit :: ahead worker.queue
  | .completing unit _ => unit :: ahead worker.queue
  | .stopping => []
  | .stopped => []

/-- No shutdown is queued or being obeyed. -/
structure Open (worker : AsyncWorker) : Prop where
  queue : WorkItem.shutdown ∉ worker.queue
  stopping : worker.phase ≠ .stopping
  stopped : worker.phase ≠ .stopped

/-- The worker has no step: it has stopped or waits for an item. -/
def Blocked (worker : AsyncWorker) : Prop :=
  worker.phase = .stopped ∨ worker.phase = .receiving ∧ worker.queue = []

def itemEffort (item : WorkItem) : ℕ :=
  match item.unit? with
  | some unit => sleeps unit + 4
  | none => 2

def phaseEffort : Phase → ℕ
  | .receiving => 0
  | .acquiring unit => sleeps unit + 3
  | .executing _ n => n + 2
  | .completing _ _ => 1
  | .stopping => 1
  | .stopped => 0

/-- An upper bound on the steps that a worker has left. -/
def effort (worker : AsyncWorker) : ℕ :=
  phaseEffort worker.phase + (worker.queue.map itemEffort).sum

section Steps

variable {id : ℕ} {worker worker' : AsyncWorker} {locked locked' : Finset Pubkey}
  {completion : Option WorkCompletion}

theorem ahead_concat (queue : List WorkItem) (item : WorkItem) :
    ahead (queue ++ [item]) =
      ahead queue ++ if WorkItem.shutdown ∈ queue then [] else item.unit?.toList := by
  induction queue with
  | nil =>
    cases item <;> rfl
  | cons first queue ih =>
    cases hFirst : first.unit? with
    | none =>
      have hShutdown : first = .shutdown := by
        cases first with
        | shutdown => rfl
        | _ => cases hFirst
      subst hShutdown
      simp [ahead, hFirst]
    | some unit =>
      have hNe : WorkItem.shutdown ≠ first := by
        rintro rfl
        cases hFirst
      simp [ahead, hFirst, ih, hNe]

/-- An item that is sent joins the backlog, unless it is behind a shutdown. -/
theorem backlog_push {item : WorkItem} (h : item = .shutdown ∨ Open worker) :
    backlog { worker with queue := worker.queue ++ [item] } =
      backlog worker ++ item.unit?.toList := by
  obtain ⟨queue, phase⟩ := worker
  have hAhead : ahead (queue ++ [item]) = ahead queue ++ item.unit?.toList := by
    rw [ahead_concat]
    rcases h with rfl | hOpen
    · simp [WorkItem.unit?]
    · rw [if_neg hOpen.queue]
  cases phase with
  | stopping =>
    rcases h with rfl | hOpen
    · rfl
    · exact absurd rfl hOpen.stopping
  | stopped =>
    rcases h with rfl | hOpen
    · rfl
    · exact absurd rfl hOpen.stopped
  | receiving => exact hAhead
  | _ => exact congrArg (List.cons _) hAhead

/-- A completion is that of the first unit of the backlog. -/
theorem Step.backlog_eq (h : Step id worker locked worker' locked' completion) :
    completion.toList.map WorkCompletion.unitId ++
        (backlog worker').map SchedulableUnit.unitId =
      (backlog worker).map SchedulableUnit.unitId := by
  cases h with
  | @receive item unit queue _ hItem => simp [backlog, ahead, hItem]
  | @complete unit result queue _ => cases result <;> rfl
  | _ => rfl

theorem Step.workerId_eq (h : Step id worker locked worker' locked' completion) :
    ∀ c ∈ completion, c.workerId = id := by
  intro c hc
  cases h with
  | @complete unit result queue _ =>
    cases hc
    cases result <;> rfl
  | _ => cases hc

theorem Step.effort_lt (h : Step id worker locked worker' locked' completion) :
    effort worker' < effort worker := by
  cases h with
  | @receive item unit queue _ hItem =>
    simp only [effort, phaseEffort, itemEffort, hItem, List.map_cons, List.sum_cons]
    omega
  | shutdown =>
    simp only [effort, phaseEffort, itemEffort, WorkItem.unit?, List.map_cons, List.sum_cons]
    omega
  | _ =>
    simp only [effort, phaseEffort, List.map_nil, List.sum_nil]
    omega

theorem Step.open (h : Step id worker locked worker' locked' completion) (hOpen : Open worker) :
    Open worker' := by
  obtain ⟨hQueue, hStopping, hStopped⟩ := hOpen
  cases h with
  | receive hItem =>
    refine ⟨?_, nofun, nofun⟩
    intro hMem
    exact hQueue (List.mem_cons_of_mem _ hMem)
  | shutdown => exact absurd List.mem_cons_self hQueue
  | stop => exact absurd rfl hStopping
  | _ => exact ⟨hQueue, nofun, nofun⟩

theorem Blocked.backlog_eq (h : Blocked worker) : backlog worker = [] := by
  obtain ⟨queue, phase⟩ := worker
  rcases h with hStopped | ⟨hReceiving, hQueue⟩
  · cases hStopped
    rfl
  · cases hReceiving
    cases hQueue
    rfl

/-- A worker that is not blocked has a step. -/
theorem exists_step_of_not_blocked (id : ℕ) (locked : Finset Pubkey) (h : ¬ Blocked worker) :
    ∃ worker' locked' completion, Step id worker locked worker' locked' completion := by
  obtain ⟨queue, phase⟩ := worker
  cases phase with
  | receiving =>
    cases queue with
    | nil => exact absurd (Or.inr ⟨rfl, rfl⟩) h
    | cons item queue =>
      cases hItem : item.unit? with
      | some unit => exact ⟨_, _, _, Step.receive hItem⟩
      | none =>
        cases item with
        | shutdown => exact ⟨_, _, _, Step.shutdown⟩
        | _ => cases hItem
  | acquiring unit =>
    by_cases hFree : Disjoint unit.allAccounts locked
    · exact ⟨_, _, _, Step.acquire hFree⟩
    · exact ⟨_, _, _, Step.reject hFree⟩
  | executing unit n =>
    cases n with
    | zero => exact ⟨_, _, _, Step.release⟩
    | succ n => exact ⟨_, _, _, Step.sleep⟩
  | completing unit result => exact ⟨_, _, _, Step.complete⟩
  | stopping => exact ⟨_, _, _, Step.stop⟩
  | stopped => exact absurd (Or.inl rfl) h

/-- An open worker without a backlog waits for an item. -/
theorem Open.eq_of_backlog_eq_nil (hOpen : Open worker) (h : backlog worker = []) :
    worker = ⟨[], .receiving⟩ := by
  obtain ⟨queue, phase⟩ := worker
  cases phase with
  | receiving =>
    cases queue with
    | nil => rfl
    | cons item queue =>
      cases item with
      | shutdown => exact absurd List.mem_cons_self hOpen.queue
      | _ => cases h
  | stopping => exact absurd rfl hOpen.stopping
  | stopped => exact absurd rfl hOpen.stopped
  | _ => cases h

end Steps

end AsyncWorker

/-! ## The pool -/

namespace AsyncWorkerPool

variable {workerCount : ℕ}

/-- The backlogs of all workers with the completions that nobody has received. -/
def inFlight (pool : AsyncWorkerPool workerCount) : ℕ :=
  pool.completions.length + ∑ w, (AsyncWorker.backlog (pool.workers w)).length

/-- An upper bound on the steps that the workers have left. -/
def effort (pool : AsyncWorkerPool workerCount) : ℕ := ∑ w, AsyncWorker.effort (pool.workers w)

/-- The unit ids of the completions of one worker. -/
def idsOf (completions : List WorkCompletion) (w : ℕ) : List String :=
  (completions.filter fun c => decide (c.workerId = w)).map WorkCompletion.unitId

/-- The unit ids of the backlog of one worker. -/
def backlogIds (pool : AsyncWorkerPool workerCount) (w : Fin workerCount) : List String :=
  (AsyncWorker.backlog (pool.workers w)).map SchedulableUnit.unitId

/-- How often a unit id is in a backlog. -/
def backlogCount (pool : AsyncWorkerPool workerCount) (id : String) : ℕ :=
  ∑ w, (pool.backlogIds w).count id

/-- The completion that a worker sends in its next step. -/
def completionOf (pool : AsyncWorkerPool workerCount) (w : Fin workerCount) :
    List WorkCompletion :=
  match AsyncWorker.runStep w (pool.workers w) pool.globalLocks with
  | some (_, _, completion) => completion.toList
  | none => []

/-- No worker has a shutdown queued or obeys one. -/
def Open (pool : AsyncWorkerPool workerCount) : Prop :=
  ∀ w, AsyncWorker.Open (pool.workers w)

/-- No worker has a step. -/
def Blocked (pool : AsyncWorkerPool workerCount) : Prop :=
  ∀ w, AsyncWorker.Blocked (pool.workers w)

/-- Completions name the workers of the pool. -/
def Named (pool : AsyncWorkerPool workerCount) : Prop :=
  ∀ c ∈ pool.completions, c.workerId < workerCount

/-- Two sums that differ in one summand. -/
theorem sum_change {n : ℕ} (f f' : Fin n → ℕ) (i : Fin n) (h : ∀ j, j ≠ i → f' j = f j) :
    (∑ j, f' j) + f i = (∑ j, f j) + f' i := by
  have hRest : ∑ j ∈ Finset.univ.erase i, f' j = ∑ j ∈ Finset.univ.erase i, f j := by
    apply Finset.sum_congr rfl
    intro j hj
    exact h j (Finset.ne_of_mem_erase hj)
  rw [← Finset.add_sum_erase _ f' (Finset.mem_univ i), hRest,
    ← Finset.add_sum_erase _ f (Finset.mem_univ i)]
  omega

theorem sum_update {β : Type} {n : ℕ} (f : β → ℕ) (g : Fin n → β) (i : Fin n) (b : β) :
    (∑ j, f (Function.update g i b j)) + f (g i) = (∑ j, f (g j)) + f b := by
  have hSum := sum_change (fun j => f (g j)) (fun j => f (Function.update g i b j)) i
    fun j hj => by rw [Function.update_of_ne hj]
  rwa [Function.update_self] at hSum

theorem idsOf_append (completions more : List WorkCompletion) (w : ℕ) :
    idsOf (completions ++ more) w = idsOf completions w ++ idsOf more w := by
  rw [idsOf, List.filter_append, List.map_append]
  rfl

theorem idsOf_eq_self {completions : List WorkCompletion} {w : ℕ}
    (h : ∀ c ∈ completions, c.workerId = w) :
    idsOf completions w = completions.map WorkCompletion.unitId := by
  rw [idsOf, List.filter_eq_self.mpr fun c hc => decide_eq_true (h c hc)]

theorem idsOf_eq_nil {completions : List WorkCompletion} {w : ℕ}
    (h : ∀ c ∈ completions, c.workerId ≠ w) : idsOf completions w = [] := by
  rw [idsOf, List.filter_eq_nil_iff.mpr fun c hc => by simp [h c hc]]
  rfl

/-! ### The counter -/

theorem toNat_countPending (pool : AsyncWorkerPool workerCount)
    (h : pool.pendingWork.toNat + 1 < UInt64.size) :
    pool.countPending.pendingWork.toNat = pool.pendingWork.toNat + 1 := by
  rw [countPending, UInt64.toNat_add]
  exact Nat.mod_eq_of_lt h

theorem toNat_pendingWork_pos {pool : AsyncWorkerPool workerCount} (h : pool.pendingWork ≠ 0) :
    0 < pool.pendingWork.toNat := by
  rw [Nat.pos_iff_ne_zero]
  intro hZero
  exact h (UInt64.toNat_inj.mp hZero)

theorem toNat_uncountPending (pool : AsyncWorkerPool workerCount) (h : pool.pendingWork ≠ 0) :
    pool.uncountPending.pendingWork.toNat = pool.pendingWork.toNat - 1 := by
  have hLe : 1 ≤ pool.pendingWork := by
    rw [UInt64.le_iff_toNat_le]
    exact toNat_pendingWork_pos h
  rw [uncountPending, UInt64.toNat_sub_of_le _ _ hLe]
  rfl

section Steps

variable {pool pool' : AsyncWorkerPool workerCount} {w : Fin workerCount}

/-! ### A worker steps -/

/-- For each worker, the completions in the channel and the backlog stay the same
sequence. -/
theorem workStep_ids (h : pool.workStep w = some pool') (v : Fin workerCount) :
    idsOf pool'.completions v ++ pool'.backlogIds v =
      idsOf pool.completions v ++ pool.backlogIds v := by
  obtain ⟨worker, locked, completion, hStep, rfl⟩ := workStep_cases h
  have hOwn : ∀ c ∈ completion.toList, c.workerId = w.val := by
    intro c hc
    exact hStep.workerId_eq c (Option.mem_toList.mp hc)
  simp only [backlogIds, idsOf_append, List.append_assoc]
  by_cases hv : v = w
  · subst hv
    rw [idsOf_eq_self hOwn, Function.update_self, hStep.backlog_eq]
  · have hOther : ∀ c ∈ completion.toList, c.workerId ≠ v.val := by
      intro c hc hSame
      exact hv (Fin.ext (hSame.symm.trans (hOwn c hc)))
    rw [idsOf_eq_nil hOther, Function.update_of_ne hv, List.nil_append]

theorem completionOf_of_step {worker : AsyncWorker} {locked : Finset Pubkey}
    {completion : Option WorkCompletion}
    (h : AsyncWorker.Step w (pool.workers w) pool.globalLocks worker locked completion) :
    pool.completionOf w = completion.toList := by
  rw [completionOf, AsyncWorker.runStep_iff.mpr h]

theorem workStep_completions (h : pool.workStep w = some pool') :
    pool'.completions = pool.completions ++ pool.completionOf w := by
  obtain ⟨worker, locked, completion, hStep, rfl⟩ := workStep_cases h
  rw [completionOf_of_step hStep]

/-- What is completed leaves the backlog. -/
theorem workStep_backlogCount (h : pool.workStep w = some pool') (id : String) :
    ((pool.completionOf w).map WorkCompletion.unitId).count id + pool'.backlogCount id =
      pool.backlogCount id := by
  obtain ⟨worker, locked, completion, hStep, rfl⟩ := workStep_cases h
  have hSum := sum_update
    (fun worker => ((AsyncWorker.backlog worker).map SchedulableUnit.unitId).count id)
    pool.workers w worker
  have hBacklog := congrArg (List.count id) hStep.backlog_eq
  rw [List.count_append] at hBacklog
  rw [completionOf_of_step hStep]
  simp only [backlogCount, backlogIds]
  omega

theorem workStep_inFlight (h : pool.workStep w = some pool') : pool'.inFlight = pool.inFlight := by
  obtain ⟨worker, locked, completion, hStep, rfl⟩ := workStep_cases h
  have hSum := sum_update (fun worker => (AsyncWorker.backlog worker).length) pool.workers w worker
  have hBacklog := congrArg List.length hStep.backlog_eq
  simp only [List.length_append, List.length_map] at hBacklog
  simp only [inFlight, List.length_append]
  omega

theorem workStep_effort_lt (h : pool.workStep w = some pool') : pool'.effort < pool.effort := by
  obtain ⟨worker, locked, completion, hStep, rfl⟩ := workStep_cases h
  have hSum := sum_update AsyncWorker.effort pool.workers w worker
  have hLt := hStep.effort_lt
  simp only [effort]
  omega

theorem workStep_named (hNamed : Named pool) (h : pool.workStep w = some pool') :
    Named pool' := by
  obtain ⟨worker, locked, completion, hStep, rfl⟩ := workStep_cases h
  intro c hc
  rcases List.mem_append.mp hc with hOld | hNew
  · exact hNamed c hOld
  · rw [hStep.workerId_eq c (Option.mem_toList.mp hNew)]
    exact w.isLt

theorem workStep_open (hOpen : Open pool) (h : pool.workStep w = some pool') : Open pool' := by
  obtain ⟨worker, locked, completion, hStep, rfl⟩ := workStep_cases h
  intro v
  by_cases hv : v = w
  · subst hv
    simp only [Function.update_self]
    exact hStep.open (hOpen v)
  · simp only [Function.update_of_ne hv]
    exact hOpen v

theorem workStep_pendingWork (h : pool.workStep w = some pool') :
    pool'.pendingWork = pool.pendingWork := by
  obtain ⟨worker, locked, completion, hStep, rfl⟩ := workStep_cases h
  rfl

/-! ### An item is enqueued -/

theorem enqueue_backlogIds {item : WorkItem}
    (h : item = .shutdown ∨ AsyncWorker.Open (pool.workers w)) (v : Fin workerCount) :
    (pool.enqueue w item).backlogIds v =
      pool.backlogIds v ++ if v = w then item.unit?.toList.map SchedulableUnit.unitId else [] := by
  by_cases hv : v = w
  · subst hv
    simp only [backlogIds, enqueue, Function.update_self]
    rw [AsyncWorker.backlog_push h, List.map_append]
    rfl
  · simp only [backlogIds, enqueue, Function.update_of_ne hv]
    rw [if_neg hv, List.append_nil]

theorem enqueue_backlogCount {item : WorkItem}
    (h : item = .shutdown ∨ AsyncWorker.Open (pool.workers w)) (id : String) :
    (pool.enqueue w item).backlogCount id =
      pool.backlogCount id + (item.unit?.toList.map SchedulableUnit.unitId).count id := by
  have hSum := sum_update
    (fun worker => ((AsyncWorker.backlog worker).map SchedulableUnit.unitId).count id)
    pool.workers w ⟨(pool.workers w).queue ++ [item], (pool.workers w).phase⟩
  have hPush := congrArg (fun units => (units.map SchedulableUnit.unitId).count id)
    (AsyncWorker.backlog_push h)
  simp only [List.map_append, List.count_append] at hPush
  simp only [backlogCount, backlogIds, enqueue]
  omega

theorem enqueue_inFlight {item : WorkItem}
    (h : item = .shutdown ∨ AsyncWorker.Open (pool.workers w)) :
    (pool.enqueue w item).inFlight = pool.inFlight + item.unit?.toList.length := by
  have hSum := sum_update (fun worker => (AsyncWorker.backlog worker).length) pool.workers w
    ⟨(pool.workers w).queue ++ [item], (pool.workers w).phase⟩
  have hPush := congrArg List.length (AsyncWorker.backlog_push h)
  rw [List.length_append] at hPush
  simp only [inFlight, enqueue]
  omega

theorem enqueue_effort (pool : AsyncWorkerPool workerCount) (w : Fin workerCount)
    (item : WorkItem) :
    (pool.enqueue w item).effort = pool.effort + AsyncWorker.itemEffort item := by
  have hSum := sum_update AsyncWorker.effort pool.workers w
    ⟨(pool.workers w).queue ++ [item], (pool.workers w).phase⟩
  have hItem : AsyncWorker.effort ⟨(pool.workers w).queue ++ [item], (pool.workers w).phase⟩ =
      AsyncWorker.effort (pool.workers w) + AsyncWorker.itemEffort item := by
    simp only [AsyncWorker.effort, List.map_append, List.sum_append, List.map_cons, List.map_nil,
      List.sum_cons, List.sum_nil]
    omega
  simp only [effort, enqueue]
  omega

theorem enqueue_open {item : WorkItem} (hOpen : Open pool) (hItem : item ≠ .shutdown) :
    Open (pool.enqueue w item) := by
  intro v
  obtain ⟨hQueue, hStopping, hStopped⟩ := hOpen v
  by_cases hv : v = w
  · subst hv
    simp only [enqueue, Function.update_self]
    refine ⟨?_, hStopping, hStopped⟩
    intro hMem
    rcases List.mem_append.mp hMem with hOld | hNew
    · exact hQueue hOld
    · exact hItem (List.mem_singleton.mp hNew).symm
  · simp only [enqueue, Function.update_of_ne hv]
    exact ⟨hQueue, hStopping, hStopped⟩

/-! ### Nothing is left -/

theorem inFlight_eq_zero_iff : pool.inFlight = 0 ↔
    pool.completions = [] ∧ ∀ w, AsyncWorker.backlog (pool.workers w) = [] := by
  rw [inFlight, Nat.add_eq_zero_iff, List.length_eq_zero_iff, Finset.sum_eq_zero_iff]
  simp

theorem spawn_inFlight (workerCount : ℕ) : (spawn workerCount).inFlight = 0 :=
  inFlight_eq_zero_iff.mpr ⟨rfl, fun _ => rfl⟩

theorem spawn_open (workerCount : ℕ) : Open (spawn workerCount) :=
  fun _ => ⟨List.not_mem_nil, nofun, nofun⟩

theorem backlogCount_eq_zero (h : pool.inFlight = 0) (id : String) : pool.backlogCount id = 0 := by
  have hBacklog := (inFlight_eq_zero_iff.mp h).2
  apply Finset.sum_eq_zero
  intro w _
  rw [backlogIds, hBacklog w]
  rfl

/-- An open pool without anything in flight is idle. -/
theorem Open.idle (hOpen : Open pool) (hInv : Inv pool) (h : pool.inFlight = 0) : Idle pool := by
  have hBacklog := (inFlight_eq_zero_iff.mp h).2
  have hWorkers : ∀ w, pool.workers w = ⟨[], .receiving⟩ := by
    intro w
    exact (hOpen w).eq_of_backlog_eq_nil (hBacklog w)
  refine ⟨hWorkers, ?_⟩
  apply Finset.eq_empty_of_forall_notMem
  intro acc hAcc
  obtain ⟨v, hv⟩ := Foundation.LockTable.Exclusive.family_mem_iff hInv |>.mp hAcc
  rw [held, hWorkers v] at hv
  exact Finset.notMem_empty acc hv

/-- A pool that is not blocked has a worker with a step. -/
theorem exists_workStep_of_not_blocked (h : ¬ Blocked pool) : ∃ w pool', pool.workStep w = some pool' := by
  obtain ⟨w, hw⟩ := not_forall.mp h
  obtain ⟨worker, locked, completion, hStep⟩ :=
    AsyncWorker.exists_step_of_not_blocked w.val pool.globalLocks hw
  exact ⟨w, _, workStep_of_step hStep⟩

/-- In a blocked pool all that is in flight is in the completion channel. -/
theorem Blocked.inFlight_eq_zero (h : Blocked pool) (hChannel : pool.completions = []) :
    pool.inFlight = 0 :=
  inFlight_eq_zero_iff.mpr ⟨hChannel, fun w => (h w).backlog_eq⟩

/-- What is in flight and not in the completion channel is in a backlog. -/
theorem exists_workStep_of_inFlight (hFlight : pool.inFlight ≠ 0)
    (hChannel : pool.completions = []) : ∃ w pool', pool.workStep w = some pool' := by
  apply exists_workStep_of_not_blocked
  intro hBlocked
  exact hFlight (hBlocked.inFlight_eq_zero hChannel)

end Steps

end AsyncWorkerPool

end Blunder
