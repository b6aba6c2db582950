import Blunder.Engine.AsyncWorker

/-!
# A pool that works off a plan

A pipeline sends the units of a batch to the queues of a pool in which nothing else is
queued. A plan is the list of these units, each with the worker it is sent to.

* `Planned`, `workStep_planned`: a worker only ever handles units planned for it.
* `reach_acquiring`: a worker that runs alone gets to any unit of its queue and leaves
  the other workers and the shared set as they were.
* `Queued.cons`: a plan is in the queues once its units are enqueued one by one.
* `reach_holding`: two units in the queues of two workers get to the point where one is
  executing and the other about to acquire its accounts.
-/

namespace Blunder

namespace AsyncWorkerPool

open Foundation.Transition

/-- The units of a batch with the workers they are sent to. -/
abbrev Plan := List (ℕ × SchedulableUnit)

variable {workerCount : ℕ}

/-! ## Units stay with their worker -/

/-- The unit that a worker is busy with. -/
def Phase.unit? : Phase → Option SchedulableUnit
  | .acquiring unit => some unit
  | .executing unit _ => some unit
  | .completing unit _ => some unit
  | _ => none

/-- The worker has the unit in its queue or is busy with it. -/
def Handles (worker : AsyncWorker) (unit : SchedulableUnit) : Prop :=
  (∃ item ∈ worker.queue, item.unit? = some unit) ∨ Phase.unit? worker.phase = some unit

/-- Every unit is with a worker it was planned for. -/
def Planned (plan : Plan) (pool : AsyncWorkerPool workerCount) : Prop :=
  ∀ w unit, Handles (pool.workers w) unit → (w.val, unit) ∈ plan

theorem handles_of_step {id : ℕ} {worker worker' : AsyncWorker} {locked locked' : Finset Pubkey}
    {completion : Option WorkCompletion} {unit : SchedulableUnit}
    (h : AsyncWorker.Step id worker locked worker' locked' completion)
    (hHandles : Handles worker' unit) : Handles worker unit := by
  cases h with
  | @receive item received queue _ hItem =>
    rcases hHandles with ⟨other, hOther, hUnit⟩ | hUnit
    · exact Or.inl ⟨other, List.mem_cons_of_mem _ hOther, hUnit⟩
    · cases hUnit
      exact Or.inl ⟨item, List.mem_cons_self, hItem⟩
  | shutdown =>
    rcases hHandles with ⟨other, hOther, hUnit⟩ | hUnit
    · exact Or.inl ⟨other, List.mem_cons_of_mem _ hOther, hUnit⟩
    · cases hUnit
  | complete =>
    rcases hHandles with hQueue | hUnit
    · exact Or.inl hQueue
    · cases hUnit
  | stop =>
    rcases hHandles with ⟨other, hOther, hUnit⟩ | hUnit
    · cases hOther
    · cases hUnit
  | _ => exact hHandles

theorem workStep_planned {plan : Plan} {pool pool' : AsyncWorkerPool workerCount}
    {w : Fin workerCount} (hPlanned : Planned plan pool) (h : pool.workStep w = some pool') :
    Planned plan pool' := by
  obtain ⟨worker, locked, completion, hStep, rfl⟩ := workStep_cases h
  intro v unit hHandles
  by_cases hv : v = w
  · subst hv
    simp only [Function.update_self] at hHandles
    exact hPlanned v unit (handles_of_step hStep hHandles)
  · simp only [Function.update_of_ne hv] at hHandles
    exact hPlanned v unit hHandles

theorem enqueue_planned {plan : Plan} {pool : AsyncWorkerPool workerCount} {w : Fin workerCount}
    {unit : SchedulableUnit} (hPlanned : Planned plan pool) (hUnit : (w.val, unit) ∈ plan) :
    Planned plan (pool.enqueue w (.ofUnit unit)) := by
  intro v other hHandles
  by_cases hv : v = w
  · subst hv
    simp only [enqueue, Function.update_self] at hHandles
    rcases hHandles with ⟨item, hItem, hOther⟩ | hOther
    · rcases List.mem_append.mp hItem with hItem | hItem
      · exact hPlanned v other (Or.inl ⟨item, hItem, hOther⟩)
      · rw [List.mem_singleton.mp hItem, WorkItem.unit?_ofUnit] at hOther
        cases hOther
        exact hUnit
    · exact hPlanned v other (Or.inr hOther)
  · simp only [enqueue, Function.update_of_ne hv] at hHandles
    exact hPlanned v other hHandles

theorem enqueue_inv {pool : AsyncWorkerPool workerCount} (h : Inv pool) (w : Fin workerCount)
    (work : WorkItem) : Inv (pool.enqueue w work) :=
  h.of_phase_eq rfl (phase_enqueue work)

/-- What `send` does, by whether it succeeds. -/
theorem send_cases (pool : AsyncWorkerPool workerCount) (workerId : ℕ) (work : WorkItem) :
    (∃ w : Fin workerCount, w.val = workerId ∧ pool.isClosed w = false ∧
        pool.send workerId work = .ok (pool.enqueue w work)) ∨
      ∃ e, pool.send workerId work = .error e := by
  unfold send
  split
  · rename_i hId
    cases hClosed : pool.isClosed ⟨workerId, hId⟩ with
    | true => exact Or.inr ⟨_, if_pos rfl⟩
    | false => exact Or.inl ⟨⟨workerId, hId⟩, rfl, hClosed, if_neg Bool.false_ne_true⟩
  · exact Or.inr ⟨_, rfl⟩

/-- Nothing is queued, in progress or locked. -/
structure Idle (pool : AsyncWorkerPool workerCount) : Prop where
  workers : ∀ w, pool.workers w = ⟨[], .receiving⟩
  locks : pool.globalLocks = ∅

theorem Idle.planned {pool : AsyncWorkerPool workerCount} (h : Idle pool) (plan : Plan) :
    Planned plan pool := by
  intro w unit hHandles
  rw [h.workers w] at hHandles
  rcases hHandles with ⟨item, hItem, -⟩ | hUnit
  · cases hItem
  · cases hUnit

theorem Idle.inv {pool : AsyncWorkerPool workerCount} (h : Idle pool) : Inv pool := by
  intro acc
  simp [h.locks, h.workers, Foundation.LockTable.family, held, Phase.held,
    Foundation.LockTable.ownerCount]

/-! ## A worker on its own -/

/-- The pool with one worker, the shared set and the completions replaced. -/
def withWorker (pool : AsyncWorkerPool workerCount) (w : Fin workerCount) (worker : AsyncWorker)
    (locked : Finset Pubkey) (completions : List WorkCompletion) : AsyncWorkerPool workerCount :=
  { pool with
    workers := Function.update pool.workers w worker
    globalLocks := locked
    completions }

theorem withWorker_self (pool : AsyncWorkerPool workerCount) (w : Fin workerCount) :
    pool.withWorker w (pool.workers w) pool.globalLocks pool.completions = pool := by
  rw [withWorker, Function.update_eq_self]

section Alone

variable (pool : AsyncWorkerPool workerCount) (w : Fin workerCount)

theorem reach_step {worker worker' : AsyncWorker} {locked locked' : Finset Pubkey}
    {completion : Option WorkCompletion} (completions : List WorkCompletion)
    (h : AsyncWorker.Step w worker locked worker' locked' completion) :
    Reachable workStep (pool.withWorker w worker locked completions)
      (pool.withWorker w worker' locked' (completions ++ completion.toList)) := by
  have hWorker : (pool.withWorker w worker locked completions).workers w = worker :=
    Function.update_self ..
  refine Reachable.single (a := w) ?_
  rw [workStep_of_step (hWorker.symm ▸ h)]
  simp [withWorker]

/-- A step without a completion. -/
theorem reach_silent {worker worker' : AsyncWorker} {locked locked' : Finset Pubkey}
    (completions : List WorkCompletion) (h : AsyncWorker.Step w worker locked worker' locked' none) :
    Reachable workStep (pool.withWorker w worker locked completions)
      (pool.withWorker w worker' locked' completions) := by
  have hStep := reach_step pool w completions h
  rwa [Option.toList_none, List.append_nil] at hStep

/-- A worker that sleeps gets to its release. -/
theorem reach_awake (unit : SchedulableUnit) (queue : List WorkItem) (locked : Finset Pubkey)
    (completions : List WorkCompletion) (n : ℕ) :
    Reachable workStep (pool.withWorker w ⟨queue, .executing unit n⟩ locked completions)
      (pool.withWorker w ⟨queue, .executing unit 0⟩ locked completions) := by
  induction n with
  | zero => exact Reachable.refl _
  | succ n ih => exact (reach_silent pool w completions AsyncWorker.Step.sleep).trans ih

/-- A unit whose accounts are free runs to a successful completion and leaves the shared
set as it was. -/
theorem reach_executed (unit : SchedulableUnit) (queue : List WorkItem) {locked : Finset Pubkey}
    (completions : List WorkCompletion) (hFree : Disjoint unit.allAccounts locked) :
    Reachable workStep (pool.withWorker w ⟨queue, .acquiring unit⟩ locked completions)
      (pool.withWorker w ⟨queue, .receiving⟩ locked (completions ++ [.of w unit (.ok ())])) := by
  have hRestored : (locked ∪ unit.allAccounts) \ unit.allAccounts = locked :=
    Finset.union_sdiff_cancel_right hFree.symm
  have hRelease : Reachable workStep
      (pool.withWorker w ⟨queue, .executing unit 0⟩ (locked ∪ unit.allAccounts) completions)
      (pool.withWorker w ⟨queue, .completing unit (.ok ())⟩
        ((locked ∪ unit.allAccounts) \ unit.allAccounts) completions) :=
    reach_silent pool w completions AsyncWorker.Step.release
  rw [hRestored] at hRelease
  exact ((reach_silent pool w completions (AsyncWorker.Step.acquire hFree)).trans
    (reach_awake pool w unit queue _ completions _)).trans
    (hRelease.trans (reach_step pool w completions AsyncWorker.Step.complete))

/-- A unit that is about to acquire runs to its completion, successful or not, and
leaves the shared set as it was. -/
theorem reach_done (unit : SchedulableUnit) (queue : List WorkItem) (locked : Finset Pubkey)
    (completions : List WorkCompletion) :
    ∃ completions', Reachable workStep
      (pool.withWorker w ⟨queue, .acquiring unit⟩ locked completions)
      (pool.withWorker w ⟨queue, .receiving⟩ locked completions') := by
  by_cases hFree : Disjoint unit.allAccounts locked
  · exact ⟨_, reach_executed pool w unit queue completions hFree⟩
  · exact ⟨_, (reach_silent pool w completions (AsyncWorker.Step.reject hFree)).trans
      (reach_step pool w completions AsyncWorker.Step.complete)⟩

/-- A worker that waits with a unit in its queue gets to the unit. -/
theorem reach_acquiring {queue : List WorkItem} {item : WorkItem} {unit : SchedulableUnit}
    (hUnits : ∀ item ∈ queue, item.unit? ≠ none) (hItem : item ∈ queue)
    (hUnit : item.unit? = some unit) (locked : Finset Pubkey) (completions : List WorkCompletion) :
    ∃ rest completions', Reachable workStep
      (pool.withWorker w ⟨queue, .receiving⟩ locked completions)
      (pool.withWorker w ⟨rest, .acquiring unit⟩ locked completions') := by
  induction queue generalizing completions with
  | nil => cases hItem
  | cons head queue ih =>
    by_cases hHead : head = item
    · subst hHead
      exact ⟨queue, completions, reach_silent pool w completions (AsyncWorker.Step.receive hUnit)⟩
    · have hRest : item ∈ queue := (List.mem_cons.mp hItem).resolve_left (Ne.symm hHead)
      obtain ⟨first, hFirst⟩ := Option.ne_none_iff_exists'.mp (hUnits head List.mem_cons_self)
      obtain ⟨completions₁, hDone⟩ := reach_done pool w first queue locked completions
      obtain ⟨rest, completions₂, hReach⟩ := ih
        (fun item h => hUnits item (List.mem_cons_of_mem _ h)) hRest completions₁
      exact ⟨rest, completions₂,
        ((reach_silent pool w completions (AsyncWorker.Step.receive hFirst)).trans hDone).trans hReach⟩

end Alone

/-! ## Two workers -/

/-- All workers wait, no shutdown is queued and nothing is locked. -/
structure Loaded (pool : AsyncWorkerPool workerCount) : Prop where
  phase : ∀ w, (pool.workers w).phase = .receiving
  queue : ∀ w, ∀ item ∈ (pool.workers w).queue, item.unit? ≠ none
  locks : pool.globalLocks = ∅

theorem Idle.loaded {pool : AsyncWorkerPool workerCount} (h : Idle pool) : Loaded pool := by
  refine ⟨fun w => ?_, fun w item hItem => ?_, h.locks⟩
  · rw [h.workers w]
  · rw [h.workers w] at hItem
    cases hItem

theorem enqueue_loaded {pool : AsyncWorkerPool workerCount} (h : Loaded pool) (w : Fin workerCount)
    (unit : SchedulableUnit) : Loaded (pool.enqueue w (.ofUnit unit)) := by
  refine ⟨fun v => (phase_enqueue _ v).trans (h.phase v), fun v item hItem => ?_, h.locks⟩
  by_cases hv : v = w
  · subst hv
    simp only [enqueue, Function.update_self] at hItem
    rcases List.mem_append.mp hItem with hItem | hItem
    · exact h.queue v item hItem
    · rw [List.mem_singleton.mp hItem, WorkItem.unit?_ofUnit]
      exact Option.some_ne_none unit
  · simp only [enqueue, Function.update_of_ne hv] at hItem
    exact h.queue v item hItem

theorem countPending_loaded {pool : AsyncWorkerPool workerCount} (h : Loaded pool) :
    Loaded pool.countPending :=
  ⟨h.phase, h.queue, h.locks⟩

/-- A waiting worker takes what is sent to it. -/
theorem Loaded.send {pool : AsyncWorkerPool workerCount} (h : Loaded pool) (w : Fin workerCount)
    (work : WorkItem) : pool.send w work = .ok (pool.enqueue w work) := by
  rw [AsyncWorkerPool.send, dif_pos w.isLt, isClosed, h.phase]
  exact if_neg Bool.false_ne_true

theorem mem_queue_enqueue {pool : AsyncWorkerPool workerCount} {v w : Fin workerCount}
    {item work : WorkItem} : item ∈ ((pool.enqueue w work).workers v).queue ↔
      item ∈ (pool.workers v).queue ∨ v = w ∧ item = work := by
  by_cases hv : v = w
  · subst hv
    simp [enqueue]
  · simp [enqueue, hv]

/-- Whatever is in a queue of the first pool is in that queue of the second. -/
def QueuesGrow (pool pool' : AsyncWorkerPool workerCount) : Prop :=
  ∀ w item, item ∈ (pool.workers w).queue → item ∈ (pool'.workers w).queue

theorem QueuesGrow.of_enqueue {pool pool' : AsyncWorkerPool workerCount} {v : Fin workerCount}
    {work : WorkItem} (h : QueuesGrow (pool.enqueue v work) pool') : QueuesGrow pool pool' := by
  intro w item hItem
  exact h w item (mem_queue_enqueue.mpr (Or.inl hItem))

/-- Every unit of the plan is in the queue of its worker. -/
def Queued (plan : Plan) (pool : AsyncWorkerPool workerCount) : Prop :=
  ∀ (w : Fin workerCount) unit, (w.val, unit) ∈ plan →
    WorkItem.ofUnit unit ∈ (pool.workers w).queue

theorem Queued.nil (pool : AsyncWorkerPool workerCount) : Queued [] pool :=
  fun _ _ h => by cases h

/-- The first unit of the plan is enqueued, then the others. -/
theorem Queued.cons {plan : Plan} {pool pool' : AsyncWorkerPool workerCount} {v : Fin workerCount}
    {unit : SchedulableUnit} (h : Queued plan pool')
    (hGrow : QueuesGrow (pool.enqueue v (.ofUnit unit)) pool') :
    Queued ((v.val, unit) :: plan) pool' := by
  intro w other hOther
  rcases List.mem_cons.mp hOther with hHere | hLater
  · obtain ⟨hw, rfl⟩ := Prod.mk.inj hHere
    have hwv : w = v := Fin.ext hw
    exact hGrow w _ (mem_queue_enqueue.mpr (Or.inr ⟨hwv, rfl⟩))
  · exact h w other hLater

/-- A plan for a worker that the pool does not have asks for nothing. -/
theorem Queued.cons_of_ne {plan : Plan} {pool : AsyncWorkerPool workerCount} {id : ℕ}
    {unit : SchedulableUnit} (h : Queued plan pool) (hId : ∀ w : Fin workerCount, w.val ≠ id) :
    Queued ((id, unit) :: plan) pool := by
  intro w other hOther
  rcases List.mem_cons.mp hOther with hHere | hLater
  · exact absurd (Prod.mk.inj hHere).1 (hId w)
  · exact h w other hLater

/-- One of two units in different queues gets to execute while the other is about to
acquire its accounts; nothing else is locked then. -/
theorem reach_holding {pool : AsyncWorkerPool workerCount} (h : Loaded pool)
    {v w : Fin workerCount} (hvw : v ≠ w) {item item' : WorkItem} {unit unit' : SchedulableUnit}
    (hItem : item ∈ (pool.workers v).queue) (hUnit : item.unit? = some unit)
    (hItem' : item' ∈ (pool.workers w).queue) (hUnit' : item'.unit? = some unit') :
    ∃ pool', Reachable workStep pool pool' ∧
      (pool'.workers v).phase = .acquiring unit ∧
      (pool'.workers w).phase = .executing unit' (AsyncWorker.sleeps unit') ∧
      pool'.globalLocks = unit'.allAccounts := by
  have hReceiving : ∀ u, pool.workers u = ⟨(pool.workers u).queue, .receiving⟩ := by
    intro u
    rw [← h.phase u]
  obtain ⟨rest', completions₁, hAcquiring'⟩ := reach_acquiring pool w (h.queue w) hItem' hUnit'
    pool.globalLocks pool.completions
  rw [← hReceiving w, withWorker_self] at hAcquiring'
  have hFree : Disjoint unit'.allAccounts pool.globalLocks := by
    rw [h.locks]
    exact Finset.disjoint_empty_right _
  have hExecuting := hAcquiring'.trans
    (reach_silent pool w completions₁ (AsyncWorker.Step.acquire hFree))
  -- The first worker has its unit; the second one runs while it sleeps.
  generalize hHolding : pool.withWorker w _ _ completions₁ = holding at hExecuting
  have hw : holding.workers w = ⟨rest', .executing unit' (AsyncWorker.sleeps unit')⟩ := by
    rw [← hHolding]
    exact Function.update_self ..
  have hv : holding.workers v = ⟨(pool.workers v).queue, .receiving⟩ := by
    rw [← hHolding, ← hReceiving v]
    exact Function.update_of_ne hvw ..
  have hLocks : holding.globalLocks = unit'.allAccounts := by
    rw [← hHolding, withWorker, h.locks, Finset.empty_union]
  obtain ⟨rest, completions₂, hAcquiring⟩ := reach_acquiring holding v (h.queue v) hItem hUnit
    holding.globalLocks holding.completions
  rw [← hv, withWorker_self] at hAcquiring
  refine ⟨_, hExecuting.trans hAcquiring, ?_, ?_, hLocks⟩
  · simp only [withWorker, Function.update_self]
  · simp only [withWorker, Function.update_of_ne (Ne.symm hvw), hw]

end AsyncWorkerPool

end Blunder
