import Blunder.Engine.Backlog
import Blunder.Engine.IntegratedPipeline

/-!
# Calls that share a pipeline

Any number of calls of `IntegratedPipeline::process_batch` run on one pipeline: they
share the pool with its counter and its completion channel. Each call has been scheduled
and dispatches its own assignments; a call that has loaded the counter locks the receiver
before it receives and unlocks it when it returns.

* `CallerStep`, `callerStep_cases`: what a step of one call does.
* `Calls.step_cases`: what a step of the pipeline does.
* `dispatchLog`: which assignments a call sends a unit for, computed from its batch alone.
-/

namespace Blunder.IntegratedPipeline

open Foundation.HashMap Foundation.Transition AsyncWorkerPool

variable {workerCount callCount : ℕ}

/-! ## One call -/

/-- What a step of a call does. -/
inductive CallerStep : BatchRun workerCount → BatchRun workerCount → Prop
  | dispatched {unitMap results pool} :
    CallerStep ⟨.dispatching [] unitMap results, pool⟩ ⟨.loading results, pool⟩
  | notFound {a assignments unitMap results pool} (hLookup : unitMap.lookup a.unitId = none) :
    CallerStep ⟨.dispatching (a :: assignments) unitMap results, pool⟩
      ⟨.dispatching assignments unitMap
        (results ++ [⟨a.unitId, a.workerId, false, some "Work unit not found"⟩]), pool⟩
  | unconverted {a assignments unitMap results pool item e}
      (hLookup : unitMap.lookup a.unitId = some item) (hConvert : convertToWorkItem item = .error e) :
    CallerStep ⟨.dispatching (a :: assignments) unitMap results, pool⟩ ⟨.returned (.error e), pool⟩
  | sent {a assignments unitMap results pool item work} {w : Fin workerCount}
      (hLookup : unitMap.lookup a.unitId = some item) (hConvert : convertToWorkItem item = .ok work)
      (hId : w.val = a.workerId) (hClosed : pool.isClosed w = false) :
    CallerStep ⟨.dispatching (a :: assignments) unitMap results, pool⟩
      ⟨.counting assignments (unitMap.erase a.unitId)
        (results ++ [⟨a.unitId, a.workerId, true, none⟩]), pool.enqueue w work⟩
  | refused {a assignments unitMap results pool item work e}
      (hLookup : unitMap.lookup a.unitId = some item) (hConvert : convertToWorkItem item = .ok work)
      (hSend : pool.send a.workerId work = .error e) :
    CallerStep ⟨.dispatching (a :: assignments) unitMap results, pool⟩
      ⟨.dispatching assignments (unitMap.erase a.unitId)
        (results ++ [⟨a.unitId, a.workerId, false, some e.display⟩]), pool⟩
  | count {assignments unitMap results pool} :
    CallerStep ⟨.counting assignments unitMap results, pool⟩
      ⟨.dispatching assignments unitMap results, pool.countPending⟩
  | loadZero {results pool} (hPending : pool.pendingWork = 0) :
    CallerStep ⟨.loading results, pool⟩ ⟨.returned (.ok (batchResult results [])), pool⟩
  | load {results pool} (hPending : pool.pendingWork ≠ 0) :
    CallerStep ⟨.loading results, pool⟩ ⟨.receiving results pool.pendingWork.toNat [], pool⟩
  | receive {results pending received completion completions pool}
      (hLt : received.length < pending) (hChannel : pool.completions = completion :: completions) :
    CallerStep ⟨.receiving results pending received, pool⟩
      ⟨.uncounting results pending (received ++ [completion]), { pool with completions }⟩
  | finish {results pending received pool} (hLe : pending ≤ received.length) :
    CallerStep ⟨.receiving results pending received, pool⟩
      ⟨.returned (.ok (batchResult results received)), pool⟩
  | uncount {results pending received pool} :
    CallerStep ⟨.uncounting results pending received, pool⟩
      ⟨.receiving results pending received, pool.uncountPending⟩

theorem callerStep_cases {run run' : BatchRun workerCount} (h : run.callerStep = some run') :
    CallerStep run run' := by
  obtain ⟨pc, pool⟩ := run
  cases pc with
  | dispatching assignments unitMap results =>
    cases assignments with
    | nil =>
      cases h
      exact CallerStep.dispatched
    | cons a assignments =>
      simp only [BatchRun.callerStep] at h
      cases hLookup : unitMap.lookup a.unitId with
      | none =>
        simp only [hLookup] at h
        cases h
        exact CallerStep.notFound hLookup
      | some item =>
        simp only [hLookup] at h
        cases hConvert : convertToWorkItem item with
        | error e =>
          simp only [hConvert] at h
          cases h
          exact CallerStep.unconverted hLookup hConvert
        | ok work =>
          simp only [hConvert] at h
          rcases send_cases pool a.workerId work with ⟨w, hId, hClosed, hSend⟩ | ⟨e, hSend⟩
          · simp only [hSend] at h
            cases h
            exact CallerStep.sent hLookup hConvert hId hClosed
          · simp only [hSend] at h
            cases h
            exact CallerStep.refused hLookup hConvert hSend
  | counting assignments unitMap results =>
    cases h
    exact CallerStep.count
  | loading results =>
    simp only [BatchRun.callerStep] at h
    split at h
    · rename_i hPending
      cases h
      exact CallerStep.loadZero hPending
    · rename_i hPending
      cases h
      exact CallerStep.load hPending
  | receiving results pending received =>
    simp only [BatchRun.callerStep] at h
    split at h
    · rename_i hLt
      obtain ⟨⟨completion, pool'⟩, hReceive, rfl⟩ := Option.map_eq_some_iff.mp h
      rw [receiveCompletion] at hReceive
      split at hReceive
      · cases hReceive
      · rename_i hChannel
        cases hReceive
        exact CallerStep.receive hLt hChannel
    · rename_i hNotLt
      cases h
      exact CallerStep.finish (Nat.le_of_not_lt hNotLt)
  | uncounting results pending received =>
    cases h
    exact CallerStep.uncount
  | returned result => cases h

/-! ## The pipeline -/

/-- An assignment that a call has dealt with, and whether it has sent a unit for it. -/
abbrev LogEntry := WorkerAssignment × Bool

/-- `receiver` is the call that holds the lock of the completion channel. `log` and
`executed` are records: of the assignments that each call has dealt with, and of all
completions that the workers have sent. -/
structure Calls (workerCount callCount : ℕ) where
  pool : AsyncWorkerPool workerCount
  calls : Fin callCount → BatchPc
  receiver : Option (Fin callCount)
  log : Fin callCount → List LogEntry
  executed : List WorkCompletion

/-- The assignment that a step of a call has dealt with. -/
def dealtWith : BatchPc → BatchPc → List LogEntry
  | .dispatching (a :: _) _ _, .counting _ _ _ => [(a, true)]
  | .dispatching (a :: _) _ _, .dispatching _ _ _ => [(a, false)]
  | _, _ => []

namespace Calls

/-- Each call has its batch and the assignments that the scheduling engine has returned
for it. -/
def start (order : AccountOrder) (pool : AsyncWorkerPool workerCount)
    (batches : Fin callCount → List Transaction × List Bundle)
    (assignments : Fin callCount → List WorkerAssignment) : Calls workerCount callCount where
  pool
  calls c := .dispatching (assignments c)
    (collect ((batchItems order (batches c).1 (batches c).2).map fun item => (item.id, item))) []
  receiver := none
  log _ := []
  executed := []

/-- The pipeline after a step of one call. A call that returns unlocks the receiver. -/
def after (s : Calls workerCount callCount) (c : Fin callCount) (run : BatchRun workerCount) :
    Calls workerCount callCount where
  pool := run.pool
  calls := Function.update s.calls c run.pc
  receiver :=
    match run.pc with
    | .returned _ => if s.receiver = some c then none else s.receiver
    | _ => s.receiver
  log := Function.update s.log c (s.log c ++ dealtWith (s.calls c) run.pc)
  executed := s.executed

section After

variable {s : Calls workerCount callCount} {c d : Fin callCount} {run : BatchRun workerCount}

@[simp] theorem after_pool : (s.after c run).pool = run.pool := rfl

@[simp] theorem after_calls_self : (s.after c run).calls c = run.pc := Function.update_self ..

@[simp] theorem after_log_self :
    (s.after c run).log c = s.log c ++ dealtWith (s.calls c) run.pc := Function.update_self ..

theorem after_calls_of_ne (h : d ≠ c) : (s.after c run).calls d = s.calls d :=
  Function.update_of_ne h _ _

theorem after_log_of_ne (h : d ≠ c) : (s.after c run).log d = s.log d :=
  Function.update_of_ne h _ _

end After

def advance (s : Calls workerCount callCount) (c : Fin callCount) :
    Option (Calls workerCount callCount) :=
  (BatchRun.mk (s.calls c) s.pool).callerStep.map (s.after c)

/-- A send for which there is no room left does not return. -/
def callStep (s : Calls workerCount callCount) (c : Fin callCount) :
    Option (Calls workerCount callCount) :=
  match s.calls c with
  | .dispatching (_ :: _) _ _ =>
    if s.pool.inFlight + callCount + 1 < UInt64.size then s.advance c else none
  | .receiving _ _ _ =>
    if s.receiver = some c then s.advance c
    else if s.receiver = none then some { s with receiver := some c }
    else none
  | _ => s.advance c

inductive Act (workerCount callCount : ℕ)
  | call (c : Fin callCount)
  | work (w : Fin workerCount)

def step (s : Calls workerCount callCount) :
    Act workerCount callCount → Option (Calls workerCount callCount)
  | .call c => s.callStep c
  | .work w =>
    (s.pool.workStep w).map fun pool =>
      { s with pool, executed := s.executed ++ s.pool.completionOf w }

/-- What a step does. -/
inductive Step (s : Calls workerCount callCount) :
    Act workerCount callCount → Calls workerCount callCount → Prop
  | work {w pool} (hWork : s.pool.workStep w = some pool) :
    Step s (.work w) { s with pool, executed := s.executed ++ s.pool.completionOf w }
  | lock {c results pending received} (hPc : s.calls c = .receiving results pending received)
      (hReceiver : s.receiver = none) : Step s (.call c) { s with receiver := some c }
  | caller {c run} (hStep : CallerStep ⟨s.calls c, s.pool⟩ run)
      (hRoom : ∀ a assignments unitMap results,
        s.calls c = .dispatching (a :: assignments) unitMap results →
          s.pool.inFlight + callCount + 1 < UInt64.size)
      (hHolds : ∀ results pending received, s.calls c = .receiving results pending received →
        s.receiver = some c) :
    Step s (.call c) (s.after c run)

theorem step_cases {s s' : Calls workerCount callCount} {act : Act workerCount callCount}
    (h : s.step act = some s') : Step s act s' := by
  cases act with
  | work w =>
    obtain ⟨pool, hWork, rfl⟩ := Option.map_eq_some_iff.mp h
    exact Step.work hWork
  | call c =>
    rw [step, callStep] at h
    split at h
    · rename_i a assignments unitMap results hPc
      split at h
      · rename_i hRoom
        obtain ⟨run, hStep, rfl⟩ := Option.map_eq_some_iff.mp h
        refine Step.caller (callerStep_cases hStep) (fun _ _ _ _ _ => hRoom) ?_
        intro _ _ _ hReceiving
        rw [hPc] at hReceiving
        cases hReceiving
      · cases h
    · rename_i results pending received hPc
      split at h
      · rename_i hHolds
        obtain ⟨run, hStep, rfl⟩ := Option.map_eq_some_iff.mp h
        refine Step.caller (callerStep_cases hStep) ?_ fun _ _ _ _ => hHolds
        intro _ _ _ _ hDispatching
        rw [hPc] at hDispatching
        cases hDispatching
      · split at h
        · rename_i hReceiver
          cases h
          exact Step.lock hPc hReceiver
        · cases h
    · rename_i hNotDispatching hNotReceiving
      obtain ⟨run, hStep, rfl⟩ := Option.map_eq_some_iff.mp h
      refine Step.caller (callerStep_cases hStep) ?_ ?_
      · intro a assignments unitMap results hPc
        exact absurd hPc (hNotDispatching a assignments unitMap results)
      · intro results pending received hPc
        exact absurd hPc (hNotReceiving results pending received)

end Calls

/-! ## The log of a batch -/

/-- What a call does with its assignments, when every send to a worker of the pool
succeeds. -/
def dispatchLog (workerCount : ℕ) : List WorkerAssignment → Map String SchedulableUnit → List LogEntry
  | [], _ => []
  | a :: assignments, units =>
    match units.lookup a.unitId with
    | none => (a, false) :: dispatchLog workerCount assignments units
    | some _ =>
      (a, decide (a.workerId < workerCount)) ::
        dispatchLog workerCount assignments (units.erase a.unitId)

/-- The ids of the units that a call has sent. -/
def sentIds (log : List LogEntry) : List String :=
  (log.filter fun entry => entry.2).map fun entry => entry.1.unitId

theorem sentIds_append (log more : List LogEntry) :
    sentIds (log ++ more) = sentIds log ++ sentIds more := by
  rw [sentIds, List.filter_append, List.map_append]
  rfl

theorem sentIds_cons_true (a : WorkerAssignment) (log : List LogEntry) :
    sentIds ((a, true) :: log) = a.unitId :: sentIds log := rfl

theorem sentIds_cons_false (a : WorkerAssignment) (log : List LogEntry) :
    sentIds ((a, false) :: log) = sentIds log := rfl

theorem sentIds_concat_true (log : List LogEntry) (a : WorkerAssignment) :
    sentIds (log ++ [(a, true)]) = sentIds log ++ [a.unitId] :=
  sentIds_append log [(a, true)]

theorem sentIds_concat_false (log : List LogEntry) (a : WorkerAssignment) :
    sentIds (log ++ [(a, false)]) = sentIds log := by
  rw [sentIds_append, sentIds_cons_false]
  exact List.append_nil _

/-- Only units of the map are sent. -/
theorem lookup_of_mem_sentIds {assignments : List WorkerAssignment}
    {units : Map String SchedulableUnit} {id : String}
    (h : id ∈ sentIds (dispatchLog workerCount assignments units)) :
    ∃ unit, units.lookup id = some unit := by
  induction assignments generalizing units with
  | nil => cases h
  | cons a assignments ih =>
    rw [dispatchLog] at h
    cases hLookup : units.lookup a.unitId with
    | none =>
      rw [hLookup] at h
      exact ih h
    | some unit =>
      have hRest : id ∈ sentIds (dispatchLog workerCount assignments (units.erase a.unitId)) →
          ∃ unit, units.lookup id = some unit := by
        intro hMem
        obtain ⟨other, hOther⟩ := ih hMem
        exact ⟨other, lookup_of_lookup_erase hOther⟩
      rw [hLookup] at h
      by_cases hId : a.workerId < workerCount
      · rw [decide_eq_true hId, sentIds_cons_true] at h
        rcases List.mem_cons.mp h with rfl | hMem
        · exact ⟨unit, hLookup⟩
        · exact hRest hMem
      · rw [decide_eq_false hId, sentIds_cons_false] at h
        exact hRest h

/-- No id is sent twice. -/
theorem nodup_sentIds (assignments : List WorkerAssignment) (units : Map String SchedulableUnit) :
    (sentIds (dispatchLog workerCount assignments units)).Nodup := by
  induction assignments generalizing units with
  | nil => exact List.nodup_nil
  | cons a assignments ih =>
    rw [dispatchLog]
    cases hLookup : units.lookup a.unitId with
    | none => exact ih units
    | some unit =>
      by_cases hId : a.workerId < workerCount
      · rw [decide_eq_true hId, sentIds_cons_true, List.nodup_cons]
        refine ⟨?_, ih _⟩
        intro hMem
        obtain ⟨other, hOther⟩ := lookup_of_mem_sentIds hMem
        rw [Finmap.lookup_erase] at hOther
        cases hOther
      · rw [decide_eq_false hId, sentIds_cons_false]
        exact ih _

end Blunder.IntegratedPipeline
