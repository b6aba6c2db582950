import Blunder.Engine.BatchTruth
import Blunder.Engine.OutputContract

/-!
# Batches one after another

One caller hands batches to an `IntegratedPipeline`. Each is scheduled by the external
scheduler, if there is one, or by the adaptive scheduler of the engine, then dispatched, and its
completions are awaited. The external scheduler may send anything, and the caller may hand in
a batch again after any outcome.

* `returned_spawn`: a call that returns leaves the pool as it was when it was spawned.
* `sentIds_of_valid`: validated assignments are all sent.
* `BatchSession.reachable_served`: what this means for the batches of any session.
-/

namespace Blunder

open Foundation.HashMap Foundation.Transition AsyncWorkerPool IntegratedPipeline

/-! ## The end of a batch -/

namespace IntegratedPipeline

variable {workerCount callCount : ℕ}

theorem callerStep_locks {run run' : BatchRun workerCount} (hStep : CallerStep run run')
    (hInv : run.pool.Inv) : run'.pool.Inv := by
  cases hStep with
  | sent => exact enqueue_inv hInv _ _
  | _ => exact hInv

theorem calls_locks {s s' : Calls workerCount callCount} {act : Calls.Act workerCount callCount}
    (hInv : s.pool.Inv) (h : s.step act = some s') : s'.pool.Inv := by
  cases Calls.step_cases h with
  | work hWork => exact workStep_inv hInv hWork
  | lock => exact hInv
  | caller hStep => exact callerStep_locks hStep hInv

section Single

variable {order : AccountOrder} {units : Fin 1 → List SchedulableUnit}
  {assignments : Fin 1 → List WorkerAssignment} {s : Calls workerCount 1}

/-- Nothing is left of a batch but its result. -/
theorem returned_spawn {result : Except MevError BatchResult}
    (hs : CallsInv order units assignments s) (hInv : s.pool.Inv)
    (hPc : s.calls 0 = .returned result) : s.pool = spawn workerCount := by
  have hFlight : s.pool.inFlight = 0 := by
    rw [hs.flight, Fin.sum_univ_one, hPc]
    rfl
  have hPending : s.pool.pendingWork = 0 := by
    have hLaw := hs.law
    rw [hFlight, Fin.sum_univ_one, Fin.sum_univ_one, hPc] at hLaw
    exact UInt64.toNat_inj.mp hLaw
  exact eq_spawn (hs.opened.idle hInv hFlight) (inFlight_eq_zero_iff.mp hFlight).1 hPending

end Single

/-- Assignments with different ids of known units to workers of the pool are all sent. -/
theorem dispatchLog_of_distinct {assignments : List WorkerAssignment}
    {rest : Map String SchedulableUnit} (hWorkers : ∀ a ∈ assignments, a.workerId < workerCount)
    (hDistinct : (assignments.map WorkerAssignment.unitId).Nodup)
    (hKnown : ∀ a ∈ assignments, rest.lookup a.unitId ≠ none) :
    dispatchLog workerCount assignments rest = assignments.map fun a => (a, true) := by
  induction assignments generalizing rest with
  | nil => rfl
  | cons a assignments ih =>
    obtain ⟨hWorker, hWorkers⟩ := List.forall_mem_cons.mp hWorkers
    obtain ⟨hFirst, hKnown⟩ := List.forall_mem_cons.mp hKnown
    obtain ⟨hHead, hDistinct⟩ := List.nodup_cons.mp hDistinct
    obtain ⟨unit, hUnit⟩ := Option.ne_none_iff_exists'.mp hFirst
    have hRest : ∀ b ∈ assignments, (rest.erase a.unitId).lookup b.unitId ≠ none := by
      intro b hb
      have hNe : b.unitId ≠ a.unitId := by
        intro hSame
        apply hHead
        rw [← hSame]
        exact List.mem_map_of_mem hb
      rw [Finmap.lookup_erase_ne hNe]
      exact hKnown b hb
    rw [dispatchLog, hUnit, ih hWorkers hDistinct hRest, decide_eq_true hWorker]
    rfl

theorem known_of_valid {order : AccountOrder} {transactions : List Transaction}
    {bundles : List Bundle} {assignments : List WorkerAssignment}
    (hValid : ExternalSchedulerClient.Valid assignments (batchItems order transactions bundles)
      workerCount) :
    ∀ a ∈ assignments, ∃ unit ∈ submitted transactions bundles, unit.unitId = a.unitId := by
  intro a ha
  obtain ⟨item, hItem, hId⟩ := hValid.known a ha
  obtain ⟨unit, hUnit, rfl⟩ := List.mem_map.mp hItem
  exact ⟨unit, hUnit, (toItem_id order unit).symm.trans hId⟩

theorem fullLog_of_valid {order : AccountOrder} {transactions : List Transaction}
    {bundles : List Bundle} {assignments : List WorkerAssignment}
    (hValid : ExternalSchedulerClient.Valid assignments (batchItems order transactions bundles)
      workerCount) :
    fullLog workerCount (submitted transactions bundles) assignments =
      assignments.map fun a => (a, true) := by
  apply dispatchLog_of_distinct hValid.inRange hValid.distinct
  intro a ha
  obtain ⟨unit, hUnit, hId⟩ := known_of_valid hValid a ha
  rw [← owner_eq_lookup, owner, Ne, List.find?_eq_none]
  intro hNone
  exact hNone unit (List.mem_reverse.mpr hUnit) (decide_eq_true hId)

/-- The result of an assignment is that of the completion of its unit. -/
def ResultOf (executed : List WorkCompletion) (a : WorkerAssignment) (r : ExecutionResult) : Prop :=
  r.unitId = a.unitId ∧ ∃ k ∈ executed, k.unitId = a.unitId ∧ r.success = k.success ∧ r.error = k.error

/-- Every assignment has the result of its unit, and nothing else was executed. -/
structure Served (assignments : List WorkerAssignment) (executed : List WorkCompletion)
    (result : BatchResult) : Prop where
  once : (executed.map WorkCompletion.unitId).Perm (assignments.map WorkerAssignment.unitId)
  results : List.Forall₂ (ResultOf executed) assignments result.results
  total : result.totalProcessed = assignments.length
  successful : result.successful = executed.countP fun k => k.success
  failed : result.successful + result.failed = result.totalProcessed

/-- Merged with the completions of all its units, a result is that of its unit. -/
theorem resultOf_merge {completions executed : List WorkCompletion} {a : WorkerAssignment}
    {r : ExecutionResult} (hNodup : (completions.map WorkCompletion.unitId).Nodup)
    (hSubset : completions ⊆ executed) (hMem : a.unitId ∈ completions.map WorkCompletion.unitId)
    (hReports : Reports (a, true) r) : ResultOf executed a (mergeCompletion completions r) := by
  obtain ⟨k, hk, hId⟩ := List.mem_map.mp hMem
  rw [mergeCompletion_eq hNodup hk (hId.trans hReports.unitId.symm)]
  exact ⟨hReports.unitId, k, hSubset hk, hId, rfl, rfl⟩

section Served

variable {order : AccountOrder} {transactions : List Transaction} {bundles : List Bundle}
  {assignments : List WorkerAssignment}

theorem sentOnce_of_valid (hValid : ExternalSchedulerClient.Valid assignments
    (batchItems order transactions bundles) workerCount) :
    SentOnce workerCount (submitted transactions bundles) assignments := by
  exact (sentOnce_iff_nodup_assignments hValid.inRange (known_of_valid hValid)).mpr hValid.distinct

theorem served_of_returned {s : Calls workerCount 1} {result : BatchResult}
    (hs : CallsInv order (fun _ => submitted transactions bundles) (fun _ => assignments) s)
    (hValid : ExternalSchedulerClient.Valid assignments (batchItems order transactions bundles)
      workerCount) (hPc : s.calls 0 = .returned (.ok result)) :
    Served assignments s.executed result := by
  obtain ⟨all, hAll, -, hAllIds, -⟩ := settled_single hs hPc
  have hTruthful := truthful_of_sentOnce hs (sentOnce_of_valid hValid) hPc
  obtain ⟨results, completions, hResult, hReports, hSubset, hPerm⟩ := (hs.call 0).settled _ hPc
  cases hResult
  have hLog : s.log 0 = assignments.map fun a => (a, true) := by
    rw [← fullLog_of_valid hValid]
    apply (hs.call 0).dispatched
    rw [hPc]
    rfl
  have hIds : sentIds (s.log 0) = assignments.map WorkerAssignment.unitId := by
    rw [hLog, sentIds, List.filter_map, List.map_map]
    simp [Function.comp_def]
  rw [hIds] at hPerm hAllIds
  have hNodup : (completions.map WorkCompletion.unitId).Nodup := hPerm.nodup_iff.mpr hValid.distinct
  rw [hLog, List.forall₂_map_left_iff] at hReports
  have hLength := hReports.length_eq
  refine ⟨(hAll.map _).trans hAllIds, ?_, ?_, hTruthful.successes, ?_⟩
  · have hMem : ∀ a ∈ assignments, a.unitId ∈ completions.map WorkCompletion.unitId :=
      fun a ha => hPerm.mem_iff.mpr (List.mem_map_of_mem ha)
    have hBoth := (List.forall₂_and_left _ _).mpr ⟨hMem, hReports⟩
    exact List.forall₂_map_right_iff.mpr (hBoth.imp fun a r h =>
      resultOf_merge hNodup hSubset h.1 h.2)
  · exact (List.length_map _).trans hLength.symm
  · have hSplit := List.length_eq_countP_add_countP (fun r : ExecutionResult => r.success)
      (l := results.map (mergeCompletion completions))
    simp only [batchResult, hSplit]
    simp

end Served

/-! ## Where assignments come from -/

/-- What is known of the assignments for a batch, by the route of the engine. -/
structure Scheduled (external : Bool) (workerCount : ℕ) (order : AccountOrder)
    (transactions : List Transaction) (bundles : List Bundle)
    (assignments : List WorkerAssignment) : Prop where
  validated : external = true →
    ExternalSchedulerClient.Valid assignments (batchItems order transactions bundles) workerCount
  distinct : external = false → 1 ≤ workerCount →
    ((submitted transactions bundles).map SchedulableUnit.unitId).Nodup →
    ExternalSchedulerClient.Valid assignments (batchItems order transactions bundles) workerCount
  complete : external = false → 1 ≤ workerCount → (submitted transactions bundles).length ≤ 2000 →
    (assignments.map WorkerAssignment.unitId).Perm
      ((submitted transactions bundles).map SchedulableUnit.unitId)

theorem ids_batchItems (order : AccountOrder) (transactions : List Transaction)
    (bundles : List Bundle) :
    (batchItems order transactions bundles).map ExecutionUnitData.id =
      (submitted transactions bundles).map SchedulableUnit.unitId := by
  rw [batchItems, List.map_map]
  exact List.map_congr_left fun unit _ => toItem_id order unit

/-- The ids of a batch survive printing and parsing. -/
theorem scheduledId_toItem (order : AccountOrder) (unit : SchedulableUnit) :
    SchedulerEngine.scheduledId (toItem order unit) = (toItem order unit).id := by
  cases unit with
  | transaction tx => rfl
  | bundle bundle =>
    rw [toItem, SchedulerEngine.scheduledId, Foundation.Decimal.parseU64_toString]
    rfl

/-- The adaptive scheduler names the units of a batch, but for those that first fit finds no
worker for. -/
theorem scheduled_internal (heap : PrioGraphScheduler.BinaryHeap) (order : AccountOrder)
    {scheduler : AdaptiveScheduler workerCount}
    (hThreshold : scheduler.loadMonitor.highThreshold = 2000) (transactions : List Transaction)
    (bundles : List Bundle) {assignments : List WorkerAssignment}
    (hSchedule : (SchedulerEngine.schedule heap scheduler
      (batchItems order transactions bundles)).2 = .ok assignments) :
    Scheduled false workerCount order transactions bundles assignments := by
  have hPerm : 1 ≤ workerCount → (∀ a ∈ assignments, a.workerId < workerCount) ∧
      (assignments.map WorkerAssignment.unitId ++
        (SchedulerEngine.leftOut scheduler (batchItems order transactions bundles)).map
          SchedulableUnit.unitId).Perm
        ((batchItems order transactions bundles).map ExecutionUnitData.id) := by
    intro hCount
    obtain ⟨found, used, hFound, hWorkers, hIds, hUsed⟩ := SchedulerEngine.schedule_ids heap hCount
      hThreshold (batchItems order transactions bundles)
    rw [hSchedule] at hFound
    cases hFound
    refine ⟨hWorkers, ?_⟩
    have hKept : ((batchItems order transactions bundles).filter ExecutionUnitData.isBundle).map
        SchedulerEngine.scheduledId =
          ((batchItems order transactions bundles).filter ExecutionUnitData.isBundle).map
            ExecutionUnitData.id := by
      apply List.map_congr_left
      intro item hItem
      obtain ⟨unit, -, rfl⟩ := List.mem_map.mp (List.mem_filter.mp hItem).1
      exact scheduledId_toItem order unit
    have hAll := hIds.append_right
      ((SchedulerEngine.leftOut scheduler (batchItems order transactions bundles)).map
        SchedulableUnit.unitId)
    rw [hKept, List.append_assoc] at hAll
    have hItems := hAll.trans (hUsed.append_left _)
    rw [← List.map_append] at hItems
    exact hItems.trans ((List.filter_append_perm _ _).map _)
  refine ⟨fun hExternal => absurd hExternal Bool.false_ne_true, ?_, ?_⟩
  · intro _ hCount hDistinct
    obtain ⟨hWorkers, hIds⟩ := hPerm hCount
    rw [← ids_batchItems order] at hDistinct
    have hNodup := List.nodup_append.mp (hIds.nodup_iff.mpr hDistinct)
    refine ⟨hNodup.1, ?_, hWorkers⟩
    intro a ha
    have hMem : a.unitId ∈ (batchItems order transactions bundles).map ExecutionUnitData.id :=
      hIds.mem_iff.mp (List.mem_append_left _ (List.mem_map_of_mem ha))
    exact List.mem_map.mp hMem
  · intro _ hCount hLe
    obtain ⟨-, hIds⟩ := hPerm hCount
    have hLength : (batchItems order transactions bundles).length ≤ 2000 := by
      rw [batchItems, List.length_map]
      exact hLe
    rw [SchedulerEngine.leftOut, if_pos hLength, List.map_nil, List.append_nil,
      ids_batchItems order] at hIds
    exact hIds

end IntegratedPipeline

/-! ## The engine -/

structure SchedulerEngine (workerCount : ℕ) where
  schedulerClient : Option ExternalSchedulerClient.Client
  adaptiveScheduler : AdaptiveScheduler workerCount

/-- `SchedulerEngine::new` with or without the address of a scheduler that it connects to. -/
def SchedulerEngine.new (external : Bool) (workerCount : ℕ) : SchedulerEngine workerCount where
  schedulerClient := if external then some (.new true) else none
  adaptiveScheduler := .new workerCount

/-- A batch that the caller has handed in. `result` and `executed` are what the call has returned
and all completions that the workers have sent for it; a batch that is not scheduled has an
error or a panic. -/
inductive BatchRecord
  | unscheduled (transactions : List Transaction) (bundles : List Bundle)
    (reason : Except Panic MevError)
  | processed (transactions : List Transaction) (bundles : List Bundle)
    (assignments : List WorkerAssignment) (result : Except MevError BatchResult)
    (executed : List WorkCompletion)
deriving DecidableEq

/-- The point that the caller has reached. `c` is its call on the client. -/
inductive BatchStage (workerCount : ℕ)
  | idle (pool : AsyncWorkerPool workerCount)
  | scheduling (transactions : List Transaction) (bundles : List Bundle) (c : ℕ)
    (pool : AsyncWorkerPool workerCount)
  | processing (transactions : List Transaction) (bundles : List Bundle)
    (assignments : List WorkerAssignment) (calls : Calls workerCount 1)

structure BatchSession (workerCount : ℕ) where
  engine : SchedulerEngine workerCount
  stage : BatchStage workerCount
  history : List BatchRecord

namespace BatchSession

variable {workerCount : ℕ}

def new (external : Bool) (workerCount : ℕ) : BatchSession workerCount :=
  ⟨.new external workerCount, .idle (spawn workerCount), []⟩

inductive Act (workerCount : ℕ)
  | submit (transactions : List Transaction) (bundles : List Bundle)
  | client (act : ExternalSchedulerClient.Client.Act)
  | scheduled
  | caller (c : Fin 1)
  | work (w : Fin workerCount)

/-- `SchedulerEngine::schedule` begins; the adaptive scheduler returns at once. -/
def submit (heap : PrioGraphScheduler.BinaryHeap) (order : AccountOrder)
    (s : BatchSession workerCount) (pool : AsyncWorkerPool workerCount)
    (transactions : List Transaction) (bundles : List Bundle) : Option (BatchSession workerCount) :=
  let items := batchItems order transactions bundles
  match s.engine.schedulerClient with
  | some client =>
    (client.step (.start items workerCount)).map fun started =>
      { s with
        engine := { s.engine with schedulerClient := some started }
        stage := .scheduling transactions bundles client.calls.length pool }
  | none =>
    let (adaptiveScheduler, result) := SchedulerEngine.schedule heap s.engine.adaptiveScheduler items
    let engine := { s.engine with adaptiveScheduler }
    match result with
    | .ok assignments =>
      some { s with
        engine
        stage := .processing transactions bundles assignments
          (singleCall order pool transactions bundles assignments) }
    | .error panic =>
      some { s with
        engine
        history := s.history ++ [.unscheduled transactions bundles (.error panic)] }

/-- The call on the client has returned. -/
def scheduled (order : AccountOrder) (s : BatchSession workerCount) :
    Option (BatchSession workerCount) :=
  match s.stage, s.engine.schedulerClient with
  | .scheduling transactions bundles c pool, some client =>
    match client.calls[c]?.map ExternalSchedulerClient.Call.phase with
    | some (.returned (.ok assignments)) =>
      some { s with
        stage := .processing transactions bundles assignments
          (singleCall order pool transactions bundles assignments) }
    | some (.returned (.error e)) =>
      some { s with
        stage := .idle pool
        history := s.history ++ [.unscheduled transactions bundles (.ok e)] }
    | _ => none
  | _, _ => none

/-- The next step of a call that has its assignments, or its return. -/
def caller (s : BatchSession workerCount) (c : Fin 1) : Option (BatchSession workerCount) :=
  match s.stage with
  | .processing transactions bundles assignments calls =>
    match calls.calls c with
    | .returned result =>
      some { s with
        stage := .idle calls.pool
        history := s.history ++
          [.processed transactions bundles assignments result calls.executed] }
    | _ =>
      (calls.step (.call c)).map fun calls =>
        { s with stage := .processing transactions bundles assignments calls }
  | _ => none

/-- A step of a worker. -/
def work (s : BatchSession workerCount) (w : Fin workerCount) : Option (BatchSession workerCount) :=
  match s.stage with
  | .idle pool => (pool.workStep w).map fun pool => { s with stage := .idle pool }
  | .scheduling transactions bundles c pool =>
    (pool.workStep w).map fun pool => { s with stage := .scheduling transactions bundles c pool }
  | .processing transactions bundles assignments calls =>
    (calls.step (.work w)).map fun calls =>
      { s with stage := .processing transactions bundles assignments calls }

/-- Only the caller starts calls on the client of the engine. -/
def step (heap : PrioGraphScheduler.BinaryHeap) (order : AccountOrder)
    (s : BatchSession workerCount) : Act workerCount → Option (BatchSession workerCount)
  | .submit transactions bundles =>
    match s.stage with
    | .idle pool => s.submit heap order pool transactions bundles
    | _ => none
  | .client (.start _ _) => none
  | .client act =>
    s.engine.schedulerClient.bind fun client => (client.step act).map fun client =>
      { s with engine := { s.engine with schedulerClient := some client } }
  | .scheduled => s.scheduled order
  | .caller c => s.caller c
  | .work w => s.work w

/-! ## The invariant -/

/-- A batch that has been handed in was scheduled by the route of the engine, and what was
executed for it is in its result. -/
def RecordInv (external : Bool) (workerCount : ℕ) (order : AccountOrder) : BatchRecord → Prop
  | .unscheduled _ _ _ => external = false → workerCount = 0
  | .processed transactions bundles assignments result executed =>
    Scheduled external workerCount order transactions bundles assignments ∧
      ∃ returned, result = .ok returned ∧ (executed.map WorkCompletion.unitId).Nodup ∧
        (∀ k ∈ executed, ∃ unit ∈ submitted transactions bundles, unit.unitId = k.unitId) ∧
        (ExternalSchedulerClient.Valid assignments (batchItems order transactions bundles)
          workerCount → Served assignments executed returned)

/-- The pool is a new one whenever no call has its assignments. -/
def StageInv (external : Bool) (order : AccountOrder)
    (client? : Option ExternalSchedulerClient.Client) : BatchStage workerCount → Prop
  | .idle pool => pool = spawn workerCount
  | .scheduling transactions bundles c pool =>
    pool = spawn workerCount ∧ ∃ client call, client? = some client ∧ client.calls[c]? = some call ∧
      call.items = batchItems order transactions bundles ∧ call.workerCount = workerCount
  | .processing transactions bundles assignments calls =>
    Scheduled external workerCount order transactions bundles assignments ∧
      CallsInv order (fun _ => submitted transactions bundles) (fun _ => assignments) calls ∧
      calls.pool.Inv

structure Inv (external : Bool) (order : AccountOrder) (s : BatchSession workerCount) : Prop where
  route : s.engine.schedulerClient.isSome = external
  results : ∀ client, s.engine.schedulerClient = some client → client.ResultsValid
  threshold : s.engine.adaptiveScheduler.loadMonitor.highThreshold = 2000
  stage : StageInv external order s.engine.schedulerClient s.stage
  history : ∀ record ∈ s.history, RecordInv external workerCount order record

section Steps

variable {heap : PrioGraphScheduler.BinaryHeap} {order : AccountOrder} {external : Bool}
  {s s' : BatchSession workerCount} {transactions : List Transaction} {bundles : List Bundle}

theorem new_inv : Inv external order (new external workerCount) := by
  refine ⟨?_, ?_, rfl, rfl, ?_⟩
  · cases external <;> rfl
  · intro client hClient i call assignments hCall
    cases external with
    | false => cases hClient
    | true =>
      cases hClient
      cases hCall
  · intro record hRecord
    cases hRecord

/-- A call that starts on a new pool. -/
theorem processing_inv {client? : Option ExternalSchedulerClient.Client}
    {assignments : List WorkerAssignment} {pool : AsyncWorkerPool workerCount}
    (hScheduled : Scheduled external workerCount order transactions bundles assignments)
    (hPool : pool = spawn workerCount) :
    StageInv external order client? (.processing transactions bundles assignments
      (singleCall order pool transactions bundles assignments)) := by
  subst hPool
  exact ⟨hScheduled, callsInv_start order workerCount (fun _ => (transactions, bundles))
    fun _ => assignments, spawn_inv⟩

theorem history_concat {record : BatchRecord}
    (hHistory : ∀ record ∈ s.history, RecordInv external workerCount order record)
    (hRecord : RecordInv external workerCount order record) :
    ∀ other ∈ s.history ++ [record], RecordInv external workerCount order other := by
  intro other hOther
  rcases List.mem_append.mp hOther with hOld | hNew
  · exact hHistory other hOld
  · rw [List.mem_singleton.mp hNew]
    exact hRecord

theorem submit_inv {pool : AsyncWorkerPool workerCount} (hs : Inv external order s)
    (hStage : s.stage = .idle pool)
    (h : s.submit heap order pool transactions bundles = some s') : Inv external order s' := by
  have hPool : pool = spawn workerCount := by
    have hIdle := hs.stage
    rwa [hStage] at hIdle
  unfold submit at h
  cases hClient : s.engine.schedulerClient with
  | some client =>
    simp only [hClient] at h
    obtain ⟨started, hStart, rfl⟩ := Option.map_eq_some_iff.mp h
    refine ⟨?_, ?_, hs.threshold, ?_, hs.history⟩
    · rw [← hs.route, hClient]
      rfl
    · intro other hOther
      cases hOther
      exact ExternalSchedulerClient.Client.resultsValid_step (hs.results client hClient) hStart
    · cases hStart
      exact ⟨hPool, _, _, rfl, List.getElem?_concat_length, rfl, rfl⟩
  | none =>
    have hRoute : external = false := by
      rw [← hs.route, hClient]
      rfl
    have hThreshold : (SchedulerEngine.schedule heap s.engine.adaptiveScheduler
        (batchItems order transactions bundles)).1.loadMonitor.highThreshold = 2000 :=
      AdaptiveScheduler.schedule_threshold.trans hs.threshold
    cases hResult : (SchedulerEngine.schedule heap s.engine.adaptiveScheduler
        (batchItems order transactions bundles)).2 with
    | ok assignments =>
      simp only [hClient, hResult] at h
      cases h
      refine ⟨hRoute.symm, nofun, hThreshold, ?_, hs.history⟩
      rw [hRoute]
      exact processing_inv (scheduled_internal heap order hs.threshold transactions bundles hResult)
        hPool
    | error panic =>
      simp only [hClient, hResult] at h
      cases h
      refine ⟨hRoute.symm, nofun, hThreshold, hStage ▸ hPool, history_concat hs.history ?_⟩
      intro _
      by_contra hCount
      obtain ⟨found, -, hFound, -⟩ := SchedulerEngine.schedule_ids heap
        (Nat.one_le_iff_ne_zero.mpr hCount) hs.threshold (batchItems order transactions bundles)
      rw [hResult] at hFound
      cases hFound

/-- A worker has nothing to do on a new pool. -/
theorem spawn_workStep (w : Fin workerCount) : (spawn workerCount).workStep w = none := rfl

theorem client_inv {act : ExternalSchedulerClient.Client.Act}
    {client client' : ExternalSchedulerClient.Client} (hs : Inv external order s)
    (hClient : s.engine.schedulerClient = some client) (hStep : client.step act = some client') :
    Inv external order
      { s with engine := { s.engine with schedulerClient := some client' } } := by
  refine ⟨?_, ?_, hs.threshold, ?_, hs.history⟩
  · rw [← hs.route, hClient]
    rfl
  · intro other hOther
    cases hOther
    exact ExternalSchedulerClient.Client.resultsValid_step (hs.results client hClient) hStep
  · have hStage := hs.stage
    cases hAt : s.stage with
    | idle pool =>
      rw [hAt] at hStage
      exact hStage
    | scheduling transactions bundles c pool =>
      rw [hAt, hClient] at hStage
      obtain ⟨hPool, found, call, hFound, hCall, hItems, hCount⟩ := hStage
      cases hFound
      obtain ⟨call', hCall', hExtends⟩ :=
        (ExternalSchedulerClient.Client.step_cases hStep).extends hCall
      exact ⟨hPool, client', call', rfl, hCall', hExtends.items.trans hItems,
        hExtends.workerCount.trans hCount⟩
    | processing transactions bundles assignments calls =>
      rw [hAt] at hStage
      exact hStage

/-- What the call on the client returns. -/
theorem scheduled_inv (hs : Inv external order s) (h : s.scheduled order = some s') :
    Inv external order s' := by
  unfold scheduled at h
  split at h
  · rename_i transactions bundles c pool client hAt hClient
    have hStage := hs.stage
    rw [hAt, hClient] at hStage
    obtain ⟨hPool, found, call, hFound, hCall, hItems, hCount⟩ := hStage
    cases hFound
    have hRoute : external = true := by
      rw [← hs.route, hClient]
      rfl
    rw [hCall, Option.map_some] at h
    split at h
    · rename_i assignments hReturned
      cases h
      refine ⟨hs.route, hs.results, hs.threshold, ?_, hs.history⟩
      have hValid := (hs.results client hClient c call assignments hCall
        (Option.some.inj hReturned)).2
      rw [hItems, hCount] at hValid
      have hInternal : external = false → False := by
        intro hFalse
        rw [hRoute] at hFalse
        cases hFalse
      exact processing_inv ⟨fun _ => hValid, fun hFalse => (hInternal hFalse).elim,
        fun hFalse => (hInternal hFalse).elim⟩ hPool
    · cases h
      refine ⟨hs.route, hs.results, hs.threshold, hPool, history_concat hs.history ?_⟩
      intro hFalse
      rw [hRoute] at hFalse
      cases hFalse
    · cases h
  · cases h

/-- What a call has returned once its units are dispatched and its completions received. -/
theorem returned_inv {assignments : List WorkerAssignment} {calls : Calls workerCount 1}
    {result : Except MevError BatchResult} (hs : Inv external order s)
    (hAt : s.stage = .processing transactions bundles assignments calls)
    (hPc : calls.calls 0 = .returned result) :
    Inv external order { s with
      stage := .idle calls.pool
      history := s.history ++
        [.processed transactions bundles assignments result calls.executed] } := by
  have hStage := hs.stage
  rw [hAt] at hStage
  obtain ⟨hScheduled, hCalls, hLocks⟩ := hStage
  refine ⟨hs.route, hs.results, hs.threshold, returned_spawn hCalls hLocks hPc,
    history_concat hs.history ⟨hScheduled, ?_⟩⟩
  obtain ⟨results, completions, hResult, -⟩ := (hCalls.call 0).settled _ hPc
  subst hResult
  obtain ⟨all, hAll, hUnique, hAllIds, -⟩ := settled_single hCalls hPc
  refine ⟨_, rfl, (hAll.map _).nodup_iff.mpr hUnique, ?_,
    fun hValid => served_of_returned hCalls hValid hPc⟩
  intro k hk
  have hSent : k.unitId ∈ sentIds (calls.log 0) :=
    hAllIds.mem_iff.mp (List.mem_map_of_mem (hAll.mem_iff.mp hk))
  exact mem_units_of_mem_fullLog ((hCalls.call 0).sublist.mem hSent)

theorem calls_inv {assignments : List WorkerAssignment} {calls calls' : Calls workerCount 1}
    {act : Calls.Act workerCount 1} (hs : Inv external order s)
    (hAt : s.stage = .processing transactions bundles assignments calls)
    (hStep : calls.step act = some calls') :
    Inv external order
      { s with stage := .processing transactions bundles assignments calls' } := by
  have hStage := hs.stage
  rw [hAt] at hStage
  obtain ⟨hScheduled, hCalls, hLocks⟩ := hStage
  exact ⟨hs.route, hs.results, hs.threshold,
    ⟨hScheduled, single_step hCalls hStep, calls_locks hLocks hStep⟩, hs.history⟩

theorem caller_inv {c : Fin 1} (hs : Inv external order s) (h : s.caller c = some s') :
    Inv external order s' := by
  obtain rfl := Subsingleton.elim c 0
  unfold caller at h
  split at h
  · rename_i transactions bundles assignments calls hAt
    split at h
    · rename_i result hPc
      cases h
      exact returned_inv hs hAt hPc
    · obtain ⟨calls', hStep, rfl⟩ := Option.map_eq_some_iff.mp h
      exact calls_inv hs hAt hStep
  · cases h

theorem work_inv {w : Fin workerCount} (hs : Inv external order s) (h : s.work w = some s') :
    Inv external order s' := by
  have hStage := hs.stage
  unfold work at h
  split at h
  · rename_i pool hAt
    rw [hAt] at hStage
    obtain rfl : pool = spawn workerCount := hStage
    rw [spawn_workStep] at h
    cases h
  · rename_i transactions bundles c pool hAt
    rw [hAt] at hStage
    obtain rfl : pool = spawn workerCount := hStage.1
    rw [spawn_workStep] at h
    cases h
  · rename_i transactions bundles assignments calls hAt
    obtain ⟨calls', hStep, rfl⟩ := Option.map_eq_some_iff.mp h
    exact calls_inv hs hAt hStep

theorem step_inv {act : Act workerCount} (hs : Inv external order s)
    (h : s.step heap order act = some s') : Inv external order s' := by
  cases act with
  | submit transactions bundles =>
    simp only [step] at h
    split at h
    · rename_i pool hAt
      exact submit_inv hs hAt h
    · cases h
  | client act =>
    cases act with
    | start items workerCount => cases h
    | _ =>
      obtain ⟨client, hClient, hNext⟩ := Option.bind_eq_some_iff.mp h
      obtain ⟨client', hStep, rfl⟩ := Option.map_eq_some_iff.mp hNext
      exact client_inv hs hClient hStep
  | scheduled => exact scheduled_inv hs h
  | caller c => exact caller_inv hs h
  | work w => exact work_inv hs h

end Steps

/-! ## Main result -/

/-- The batches of a session.
* `restored`: between two batches the pool is as it was when it was spawned.
* `unscheduled`: nothing is dispatched for a batch that is not scheduled, and without an
  external scheduler a pipeline with a worker schedules every batch.
* `executed`: a unit is executed at most once, and for the batch that it was handed in with.
* `validated`: whatever the external scheduler sends, a call that does not fail has one result
  for each assignment, that of the execution of its unit, and nothing else was executed.
* `distinct`: so it is without one for a batch with different ids.
* `complete`: of such a batch of at most 2000 units every one is executed exactly once. -/
structure AllServed (external : Bool) (order : AccountOrder) (s : BatchSession workerCount) :
    Prop where
  restored : ∀ pool, s.stage = .idle pool → pool = spawn workerCount
  unscheduled : ∀ transactions bundles reason,
    .unscheduled transactions bundles reason ∈ s.history → external = false → workerCount = 0
  executed : ∀ transactions bundles assignments result executed,
    .processed transactions bundles assignments result executed ∈ s.history →
      (executed.map WorkCompletion.unitId).Nodup ∧
        ∀ k ∈ executed, ∃ unit ∈ submitted transactions bundles, unit.unitId = k.unitId
  validated : external = true → ∀ transactions bundles assignments result executed,
    .processed transactions bundles assignments result executed ∈ s.history →
      ExternalSchedulerClient.Valid assignments (batchItems order transactions bundles)
        workerCount ∧
      ∃ returned, result = .ok returned ∧ Served assignments executed returned
  distinct : external = false → 1 ≤ workerCount →
    ∀ transactions bundles assignments result executed,
      .processed transactions bundles assignments result executed ∈ s.history →
        ((submitted transactions bundles).map SchedulableUnit.unitId).Nodup →
          ∃ returned, result = .ok returned ∧ Served assignments executed returned
  complete : external = false → 1 ≤ workerCount →
    ∀ transactions bundles assignments result executed,
      .processed transactions bundles assignments result executed ∈ s.history →
        ((submitted transactions bundles).map SchedulableUnit.unitId).Nodup →
          (submitted transactions bundles).length ≤ 2000 →
            (executed.map WorkCompletion.unitId).Perm
              ((submitted transactions bundles).map SchedulableUnit.unitId)

theorem reachable_served {heap : PrioGraphScheduler.BinaryHeap} {order : AccountOrder}
    {external : Bool} {s : BatchSession workerCount}
    (h : Reachable (step heap order) (new external workerCount) s) :
    AllServed external order s := by
  have hs : Inv external order s := h.invariant (fun _ _ _ hs hStep => step_inv hs hStep) new_inv
  refine ⟨?_, ?_, ?_, ?_, ?_, ?_⟩
  · intro pool hAt
    have hStage := hs.stage
    rwa [hAt] at hStage
  · intro transactions bundles reason hMem
    exact hs.history _ hMem
  · intro transactions bundles assignments result executed hMem
    obtain ⟨-, returned, -, hNodup, hOwn, -⟩ := hs.history _ hMem
    exact ⟨hNodup, hOwn⟩
  · intro hExternal transactions bundles assignments result executed hMem
    obtain ⟨hScheduled, returned, hResult, -, -, hServed⟩ := hs.history _ hMem
    have hValid := hScheduled.validated hExternal
    exact ⟨hValid, returned, hResult, hServed hValid⟩
  · intro hInternal hCount transactions bundles assignments result executed hMem hDistinct
    obtain ⟨hScheduled, returned, hResult, -, -, hServed⟩ := hs.history _ hMem
    exact ⟨returned, hResult, hServed (hScheduled.distinct hInternal hCount hDistinct)⟩
  · intro hInternal hCount transactions bundles assignments result executed hMem hDistinct hLe
    obtain ⟨hScheduled, returned, -, -, -, hServed⟩ := hs.history _ hMem
    have hOnce := (hServed (hScheduled.distinct hInternal hCount hDistinct)).once
    exact hOnce.trans (hScheduled.complete hInternal hCount hLe)

/-- What the client does for a batch whose request gets the answer. -/
def ask (i : ℕ) (answer : SchedulerMessage) : List (Act 2) :=
  List.replicate 6 (.client (.call i .proceed)) ++
    [.client .lockConnection, .client (.accept (.message answer)), .client .handle,
      .client (.call i .proceed), .scheduled]

/-- The transactions and bundles of two batches. -/
def twoBatches : (List Transaction × List Bundle) × (List Transaction × List Bundle) :=
  let sharing id := Transaction.new id [AccountMeta.new (Pubkey.filled 1) true] 1 1
  (([sharing "a", sharing "b"], [Bundle.new 7 [sharing "c"] 1 "searcher"]),
    ([sharing "a", Transaction.new "d" [] 1 1], []))

/-- The external scheduler places two transactions with one account on different workers, which
meet, and leaves one of the second batch out. -/
def placedTwice (c : Fin 1) (v w : Fin 2) : List (Act 2) :=
  List.flatten [
    [.submit twoBatches.1.1 twoBatches.1.2],
    ask 0 (.scheduleResponse 1 [⟨"a", 0, false⟩, ⟨"b", 1, false⟩, ⟨"7", 0, true⟩]),
    List.replicate 6 (.caller c), [.work v, .work v], List.replicate 3 (.work w),
    List.replicate 7 (.work v), List.replicate 11 (.caller c),
    [.submit twoBatches.2.1 twoBatches.2.2], ask 1 (.scheduleResponse 2 [⟨"d", 1, false⟩]),
    List.replicate 4 (.caller c), List.replicate 5 (.work w), List.replicate 5 (.caller c)]

/-- The second transaction finds the account locked. -/
def placedTwiceHistory : List BatchRecord :=
  let busy := some "Lock acquisition failed"
  [.processed twoBatches.1.1 twoBatches.1.2 [⟨"a", 0, false⟩, ⟨"b", 1, false⟩, ⟨"7", 0, true⟩]
      (.ok ⟨3, 2, 1, [⟨"a", 0, true, none⟩, ⟨"b", 1, false, busy⟩, ⟨"7", 0, true, none⟩]⟩)
      [⟨1, "b", false, busy⟩, ⟨0, "a", true, none⟩, ⟨0, "7", true, none⟩],
    .processed twoBatches.2.1 twoBatches.2.2 [⟨"d", 1, false⟩]
      (.ok ⟨1, 1, 0, [⟨"d", 1, true, none⟩]⟩) [⟨1, "d", true, none⟩]]

theorem reachable_served_placedTwice :
    ∃ s : BatchSession 2,
      Reachable (step (fun _ => Foundation.PriorityQueue.MaxHeap.ofList _) .listed) (new true 2) s ∧
        s.history = placedTwiceHistory ∧ AllServed true .listed s := by
  have hSeen : (run (step (fun _ => Foundation.PriorityQueue.MaxHeap.ofList _) .listed) (new true 2)
      (placedTwice 0 0 1)).map BatchSession.history = some placedTwiceHistory := by
    decide +kernel
  obtain ⟨s, hRun, hHistory⟩ := Option.map_eq_some_iff.mp hSeen
  exact ⟨s, ⟨_, hRun⟩, hHistory, reachable_served ⟨_, hRun⟩⟩

end BatchSession

end Blunder
