import Blunder.Engine.BatchSession

/-!
# Every batch returns

A batch that has its assignments dispatches them, waits for as many completions as the counter
says and returns. Only the call to an external scheduler may wait for ever.

* `stepsLeft`: an upper bound on the steps of the caller and the workers until the batch is
  returned, from any point of the call.
* `Calls.exists_step`: until then one of them has a step.
* `BatchSession.reachable_returning`: what this means for the batches of any session.
-/

namespace Blunder

open Foundation.HashMap Foundation.Transition AsyncWorkerPool IntegratedPipeline

namespace IntegratedPipeline

variable {workerCount : ℕ}

/-! ## How much is left to do -/

/-- An upper bound on the steps for the assignments that are left: to send a unit, to count it
and to execute it. -/
def dispatchEffort : List WorkerAssignment → Map String ExecutionUnitData → ℕ
  | [], _ => 0
  | a :: assignments, unitMap =>
    match unitMap.lookup a.unitId with
    | none => dispatchEffort assignments unitMap + 1
    | some item =>
      match convertToWorkItem item with
      | .error _ => 0
      | .ok work => dispatchEffort assignments (unitMap.erase a.unitId) +
          AsyncWorker.itemEffort work + 5

/-- An upper bound on the steps that a call has left. Each unit that is counted costs three
more steps of the wait. -/
def BatchPc.stepsLeft (holds : Bool) (pending : ℕ) : BatchPc → ℕ
  | .dispatching assignments unitMap _ => dispatchEffort assignments unitMap + 3 * pending + 4
  | .counting assignments unitMap _ => dispatchEffort assignments unitMap + 3 * pending + 8
  | pc => pc.effort holds pending

def Calls.stepsLeft (s : Calls workerCount 1) (c : Fin 1) : ℕ :=
  s.pool.effort + (s.calls c).stepsLeft (decide (s.receiver = some c)) s.pool.pendingWork.toNat

theorem stepsLeft_eq_effort {pc : BatchPc} (hWaits : pc.remaining = none) (holds : Bool)
    (pending : ℕ) : pc.stepsLeft holds pending = pc.effort holds pending := by
  cases pc with
  | dispatching => cases hWaits
  | counting => cases hWaits
  | _ => rfl

theorem toNat_countPending_le (pool : AsyncWorkerPool workerCount) :
    pool.countPending.pendingWork.toNat ≤ pool.pendingWork.toNat + 1 := by
  rw [countPending, UInt64.toNat_add]
  exact Nat.mod_le _ _

theorem dispatchEffort_none {a : WorkerAssignment} {assignments : List WorkerAssignment}
    {unitMap : Map String ExecutionUnitData} (hLookup : unitMap.lookup a.unitId = none) :
    dispatchEffort (a :: assignments) unitMap = dispatchEffort assignments unitMap + 1 := by
  rw [dispatchEffort, hLookup]

theorem dispatchEffort_ok {a : WorkerAssignment} {assignments : List WorkerAssignment}
    {unitMap : Map String ExecutionUnitData} {item : ExecutionUnitData} {work : WorkItem}
    (hLookup : unitMap.lookup a.unitId = some item) (hConvert : convertToWorkItem item = .ok work) :
    dispatchEffort (a :: assignments) unitMap =
      dispatchEffort assignments (unitMap.erase a.unitId) + AsyncWorker.itemEffort work + 5 := by
  rw [dispatchEffort, hLookup]
  simp only [hConvert]

/-- Every step of a call uses up some of what it has left. -/
theorem callerStep_stepsLeft_lt {pc : BatchPc} {pool : AsyncWorkerPool workerCount}
    {run : BatchRun workerCount} (hStep : CallerStep ⟨pc, pool⟩ run) (holds holds' : Bool) :
    run.pool.effort + run.pc.stepsLeft holds' run.pool.pendingWork.toNat <
      pool.effort + pc.stepsLeft holds pool.pendingWork.toNat := by
  by_cases hWaits : pc.remaining = none
  · have hLt := callerStep_effort_lt hStep hWaits holds holds'
    have hNext : run.pc.remaining = none := by
      cases hStep with
      | dispatched => cases hWaits
      | notFound => cases hWaits
      | sent => cases hWaits
      | refused => cases hWaits
      | count => cases hWaits
      | _ => rfl
    rwa [stepsLeft_eq_effort hWaits, stepsLeft_eq_effort hNext]
  · cases hStep with
    | dispatched =>
      simp only [BatchPc.stepsLeft, BatchPc.effort, dispatchEffort]
      omega
    | notFound hLookup =>
      simp only [BatchPc.stepsLeft, dispatchEffort_none hLookup]
      omega
    | unconverted =>
      simp only [BatchPc.stepsLeft, BatchPc.effort]
      omega
    | @sent a assignments unitMap results _ item work w hLookup hConvert =>
      have hPool := enqueue_effort pool w work
      have hPending : (pool.enqueue w work).pendingWork = pool.pendingWork := rfl
      simp only [BatchPc.stepsLeft, dispatchEffort_ok hLookup hConvert, hPool, hPending]
      omega
    | refused hLookup hConvert =>
      simp only [BatchPc.stepsLeft, dispatchEffort_ok hLookup hConvert]
      omega
    | count =>
      have hCounter := toNat_countPending_le pool
      have hPool : pool.countPending.effort = pool.effort := rfl
      simp only [BatchPc.stepsLeft, hPool]
      omega
    | _ => exact absurd rfl hWaits

namespace Calls

variable {order : AccountOrder} {units : Fin 1 → List SchedulableUnit}
  {assignments : Fin 1 → List WorkerAssignment} {s s' : Calls workerCount 1}
  {act : Act workerCount 1}

theorem stepsLeft_lt (h : s.step act = some s') : s'.stepsLeft 0 < s.stepsLeft 0 := by
  cases step_cases h with
  | @work w pool hWork =>
    have hPending := workStep_pendingWork hWork
    have hLt := workStep_effort_lt hWork
    simp only [stepsLeft, hPending]
    omega
  | @lock c results pending received hPc hReceiver =>
    obtain rfl := Subsingleton.elim c 0
    have hFree : decide (s.receiver = some 0) = false := by rw [hReceiver]; rfl
    simp only [stepsLeft, hPc, hFree, BatchPc.stepsLeft, BatchPc.effort, decide_true, if_true,
      Bool.false_eq_true, if_false]
    omega
  | @caller c run hStep hRoom hHolds =>
    obtain rfl := Subsingleton.elim c 0
    have hLt := callerStep_stepsLeft_lt hStep (decide (s.receiver = some 0))
      (decide ((s.after 0 run).receiver = some 0))
    rw [stepsLeft, stepsLeft, after_calls_self, after_pool]
    exact hLt

/-! ## Somebody has a step -/

/-- The call waits for no more than it has sent. -/
def WaitsForSent (s : Calls workerCount 1) : Prop :=
  ∀ c pending, (s.calls c).target? = some pending → pending ≤ (sentIds (s.log c)).length

theorem waitsForSent_start {pool : AsyncWorkerPool workerCount} {transactions : List Transaction}
    {bundles : List Bundle} {batch : List WorkerAssignment} :
    (singleCall order pool transactions bundles batch).WaitsForSent := by
  intro c pending hTarget
  cases hTarget

theorem waitsForSent_step (hs : CallsInv order units assignments s) (hWaits : s.WaitsForSent)
    (h : s.step act = some s') : s'.WaitsForSent := by
  by_cases hDispatched : (s.calls 0).remaining = none
  · intro c
    obtain rfl := Subsingleton.elim c 0
    exact (waits_step hs ⟨hDispatched, hWaits 0⟩ h).target
  · cases step_cases h with
    | work => exact hWaits
    | lock => exact hWaits
    | @caller c run hStep =>
      obtain rfl := Subsingleton.elim c 0
      have hNoTarget : run.pc.target? = none := by
        generalize s.calls 0 = pc at hStep hDispatched
        cases hStep with
        | loadZero => exact absurd rfl hDispatched
        | load => exact absurd rfl hDispatched
        | receive => exact absurd rfl hDispatched
        | finish => exact absurd rfl hDispatched
        | uncount => exact absurd rfl hDispatched
        | _ => rfl
      intro d pending hTarget
      obtain rfl := Subsingleton.elim d 0
      rw [after_calls_self, hNoTarget] at hTarget
      cases hTarget

/-- A call that dispatches always has a step. -/
theorem exists_callerStep_of_remaining {pc : BatchPc} {pool : AsyncWorkerPool workerCount}
    (h : pc.remaining ≠ none) : ∃ run, (BatchRun.mk pc pool).callerStep = some run := by
  cases pc with
  | dispatching batch unitMap results =>
    cases batch with
    | nil => exact ⟨_, rfl⟩
    | cons a batch =>
      simp only [BatchRun.callerStep]
      cases unitMap.lookup a.unitId with
      | none => exact ⟨_, rfl⟩
      | some item =>
        dsimp only
        cases convertToWorkItem item with
        | error e => exact ⟨_, rfl⟩
        | ok work =>
          dsimp only
          cases pool.send a.workerId work with
          | error e => exact ⟨_, rfl⟩
          | ok pool => exact ⟨_, rfl⟩
  | counting => exact ⟨_, rfl⟩
  | _ => exact absurd rfl h

/-- While the call has not returned, itself or a worker has a step. -/
theorem exists_step (hs : CallsInv order units assignments s) (hWaits : s.WaitsForSent)
    (hLength : (assignments 0).length < 2 ^ 63) :
    (∃ result, s.calls 0 = .returned result) ∨ ∃ act s', s.step act = some s' := by
  by_cases hDispatched : (s.calls 0).remaining = none
  · exact IntegratedPipeline.exists_step hs ⟨hDispatched, hWaits 0⟩
  · right
    obtain ⟨run, hStep⟩ := exists_callerStep_of_remaining hDispatched
    have hAdvance : s.advance 0 = some (s.after 0 run) := by
      rw [advance, hStep]
      rfl
    refine ⟨.call 0, s.after 0 run, ?_⟩
    cases hPc : s.calls 0 with
    | dispatching batch unitMap results =>
      cases batch with
      | nil =>
        simp only [step, callStep, hPc]
        exact hAdvance
      | cons a batch =>
        simp only [step, callStep, hPc]
        rw [if_pos (room_of_length_lt hs hLength)]
        exact hAdvance
    | counting batch unitMap results =>
      simp only [step, callStep, hPc]
      exact hAdvance
    | _ =>
      rw [hPc] at hDispatched
      exact absurd rfl hDispatched

end Calls

end IntegratedPipeline

/-! ## Sessions -/

namespace BatchSession

variable {workerCount : ℕ} {heap : PrioGraphScheduler.BinaryHeap} {order : AccountOrder}
  {external : Bool}

/-- A step of the caller or of a worker. -/
def Act.ofBatch : Act workerCount → Bool
  | .caller _ => true
  | .work _ => true
  | _ => false

/-- An upper bound on the steps until the batch in progress is returned; `c` is its call. -/
def stepsLeft (s : BatchSession workerCount) (c : Fin 1) : ℕ :=
  match s.stage with
  | .processing _ _ _ calls => calls.stepsLeft c + 1
  | _ => 0

/-- The batch that was in progress in the first state has returned a result and left a pool
like a new one. -/
def Returned (s : BatchSession workerCount) (transactions : List Transaction) (bundles : List Bundle)
    (assignments : List WorkerAssignment) (s' : BatchSession workerCount) : Prop :=
  ∃ result executed, s'.stage = .idle (spawn workerCount) ∧ s'.history = s.history ++
    [.processed transactions bundles assignments (.ok result) executed]

/-- The batch that was in progress in the first state still is, or it has returned. -/
def Followed (s : BatchSession workerCount) (transactions : List Transaction) (bundles : List Bundle)
    (assignments : List WorkerAssignment) (s' : BatchSession workerCount) : Prop :=
  (∃ calls, s'.stage = .processing transactions bundles assignments calls ∧
    s'.history = s.history) ∨ Returned s transactions bundles assignments s'

/-- What is known while a batch is in progress. -/
structure RunInv (external : Bool) (order : AccountOrder) (s : BatchSession workerCount) : Prop where
  session : Inv external order s
  waits : ∀ transactions bundles assignments calls,
    s.stage = .processing transactions bundles assignments calls → calls.WaitsForSent

section Steps

variable {s s' : BatchSession workerCount} {act : Act workerCount}
  {transactions : List Transaction} {bundles : List Bundle} {assignments : List WorkerAssignment}
  {calls : Calls workerCount 1}

/-- A batch in progress has just got its assignments, or was in progress before. -/
theorem processing_of_step (h : s.step heap order act = some s')
    (hAt : s'.stage = .processing transactions bundles assignments calls) :
    (∃ pool, calls = singleCall order pool transactions bundles assignments) ∨
      ∃ before, s.stage = .processing transactions bundles assignments before ∧
        (calls = before ∨ ∃ own, before.step own = some calls) := by
  cases act with
  | submit txs bs =>
    simp only [step] at h
    split at h
    · rename_i pool hIdle
      unfold submit at h
      split at h
      · obtain ⟨started, -, rfl⟩ := Option.map_eq_some_iff.mp h
        cases hAt
      · dsimp only at h
        split at h
        · cases h
          cases hAt
          exact Or.inl ⟨pool, rfl⟩
        · cases h
          rw [hIdle] at hAt
          cases hAt
    · cases h
  | client act =>
    have hStage : s'.stage = s.stage := by
      cases act with
      | start => cases h
      | _ =>
        obtain ⟨client, -, hNext⟩ := Option.bind_eq_some_iff.mp h
        obtain ⟨client', -, rfl⟩ := Option.map_eq_some_iff.mp hNext
        rfl
    exact Or.inr ⟨calls, hStage.symm.trans hAt, Or.inl rfl⟩
  | scheduled =>
    simp only [step, scheduled] at h
    split at h
    · rename_i txs bs c pool client hScheduling hClient
      split at h
      · cases h
        cases hAt
        exact Or.inl ⟨pool, rfl⟩
      · cases h
        cases hAt
      · cases h
    · cases h
  | caller c =>
    simp only [step, caller] at h
    split at h
    · rename_i txs bs batch before hBefore
      split at h
      · cases h
        cases hAt
      · obtain ⟨after, hStep, rfl⟩ := Option.map_eq_some_iff.mp h
        cases hAt
        exact Or.inr ⟨before, hBefore, Or.inr ⟨_, hStep⟩⟩
    · cases h
  | work w =>
    simp only [step, work] at h
    split at h
    · obtain ⟨pool, -, rfl⟩ := Option.map_eq_some_iff.mp h
      cases hAt
    · obtain ⟨pool, -, rfl⟩ := Option.map_eq_some_iff.mp h
      cases hAt
    · rename_i txs bs batch before hBefore
      obtain ⟨after, hStep, rfl⟩ := Option.map_eq_some_iff.mp h
      cases hAt
      exact Or.inr ⟨before, hBefore, Or.inr ⟨_, hStep⟩⟩

theorem RunInv.callsInv (hs : RunInv external order s)
    (hAt : s.stage = .processing transactions bundles assignments calls) :
    CallsInv order (fun _ => submitted transactions bundles) (fun _ => assignments) calls := by
  have hStage := hs.session.stage
  rw [hAt] at hStage
  exact hStage.2.1

theorem runInv_step (hs : RunInv external order s) (h : s.step heap order act = some s') :
    RunInv external order s' := by
  refine ⟨step_inv hs.session h, ?_⟩
  intro transactions bundles assignments calls hAt
  rcases processing_of_step h hAt with ⟨pool, rfl⟩ | ⟨before, hBefore, rfl | ⟨own, hStep⟩⟩
  · exact Calls.waitsForSent_start
  · exact hs.waits _ _ _ _ hBefore
  · exact Calls.waitsForSent_step (hs.callsInv hBefore) (hs.waits _ _ _ _ hBefore) hStep

theorem runInv_new : RunInv external order (new external workerCount) := by
  refine ⟨new_inv, ?_⟩
  intro transactions bundles assignments calls hAt
  cases hAt

/-- Every step of the caller or of a worker brings the batch closer to its return. -/
theorem stepsLeft_lt (hs : Inv external order s) (hAct : act.ofBatch = true)
    (h : s.step heap order act = some s') : s'.stepsLeft 0 < s.stepsLeft 0 := by
  cases act with
  | caller c =>
    simp only [step, caller] at h
    split at h
    · rename_i txs bs batch calls hAt
      split at h
      · cases h
        simp only [stepsLeft, hAt]
        exact Nat.succ_pos _
      · obtain ⟨after, hStep, rfl⟩ := Option.map_eq_some_iff.mp h
        simp only [stepsLeft, hAt]
        exact Nat.succ_lt_succ (Calls.stepsLeft_lt hStep)
    · cases h
  | work w =>
    have hStage := hs.stage
    simp only [step, work] at h
    split at h
    · rename_i pool hAt
      rw [hAt] at hStage
      obtain rfl : pool = spawn workerCount := hStage
      rw [spawn_workStep] at h
      cases h
    · rename_i txs bs c pool hAt
      rw [hAt] at hStage
      obtain rfl : pool = spawn workerCount := hStage.1
      rw [spawn_workStep] at h
      cases h
    · rename_i txs bs batch calls hAt
      obtain ⟨after, hStep, rfl⟩ := Option.map_eq_some_iff.mp h
      simp only [stepsLeft, hAt]
      exact Nat.succ_lt_succ (Calls.stepsLeft_lt hStep)
  | _ => cases hAct

theorem client_stepsLeft {act : ExternalSchedulerClient.Client.Act}
    (h : s.step heap order (.client act) = some s') : s'.stepsLeft 0 = s.stepsLeft 0 := by
  cases act with
  | start => cases h
  | _ =>
    obtain ⟨client, -, hNext⟩ := Option.bind_eq_some_iff.mp h
    obtain ⟨client', -, rfl⟩ := Option.map_eq_some_iff.mp hNext
    rfl

/-- While a batch is in progress the caller or a worker has a step. -/
theorem exists_step (hs : RunInv external order s)
    (hAt : s.stage = .processing transactions bundles assignments calls)
    (hLength : assignments.length < 2 ^ 63) :
    ∃ act s', act.ofBatch = true ∧ s.step heap order act = some s' := by
  have hNext := Calls.exists_step (hs.callsInv hAt) (hs.waits _ _ _ _ hAt) hLength
  by_cases hReturned : ∃ result, calls.calls 0 = .returned result
  · obtain ⟨result, hPc⟩ := hReturned
    refine ⟨.caller 0, { s with
      stage := .idle calls.pool
      history := s.history ++
        [.processed transactions bundles assignments result calls.executed] }, rfl, ?_⟩
    simp only [step, caller, hAt, hPc]
  · obtain ⟨own, calls', hStep⟩ := hNext.resolve_left hReturned
    cases own with
    | work w =>
      refine ⟨.work w, { s with
        stage := .processing transactions bundles assignments calls' }, rfl, ?_⟩
      simp only [step, work, hAt, hStep]
      rfl
    | call c =>
      obtain rfl := Subsingleton.elim c 0
      have hCaller : s.caller 0 = (calls.step (.call 0)).map fun calls =>
          { s with stage := .processing transactions bundles assignments calls } := by
        simp only [caller, hAt]
        cases hPc : calls.calls 0 with
        | returned result => exact absurd ⟨result, hPc⟩ hReturned
        | _ => rfl
      refine ⟨.caller 0, { s with
        stage := .processing transactions bundles assignments calls' }, rfl, ?_⟩
      rw [step, hCaller, hStep]
      rfl

/-- A batch in progress stays in progress until its result is recorded. -/
theorem followed_step (hs : RunInv external order s)
    (hAt : s.stage = .processing transactions bundles assignments calls)
    (hAct : act.ofBatch = true) (h : s.step heap order act = some s') :
    Followed s transactions bundles assignments s' := by
  cases act with
  | caller c =>
    obtain rfl := Subsingleton.elim c 0
    have hNext := (runInv_step hs h).session.stage
    simp only [step, caller, hAt] at h
    split at h
    · rename_i result hPc
      cases h
      obtain ⟨results, completions, rfl, -⟩ := ((hs.callsInv hAt).call 0).settled _ hPc
      exact Or.inr ⟨_, _, congrArg BatchStage.idle hNext, rfl⟩
    · obtain ⟨after, -, rfl⟩ := Option.map_eq_some_iff.mp h
      exact Or.inl ⟨after, rfl, rfl⟩
  | work w =>
    simp only [step, work, hAt] at h
    obtain ⟨after, -, rfl⟩ := Option.map_eq_some_iff.mp h
    exact Or.inl ⟨after, rfl, rfl⟩
  | _ => cases hAct

/-- The caller and the workers get a batch in progress to its return. -/
theorem exists_returned (hs : RunInv external order s)
    (hAt : s.stage = .processing transactions bundles assignments calls)
    (hLength : assignments.length < 2 ^ 63) :
    ∃ acts s', run (step heap order) s acts = some s' ∧ (∀ act ∈ acts, act.ofBatch = true) ∧
      Returned s transactions bundles assignments s' := by
  have hProgress : ∀ x, RunInv external order x ∧ Followed s transactions bundles assignments x →
      Returned s transactions bundles assignments x ∨ ∃ act x', act.ofBatch = true ∧
        x.step heap order act = some x' ∧
        (RunInv external order x' ∧ Followed s transactions bundles assignments x') ∧
        x'.stepsLeft 0 < x.stepsLeft 0 := by
    intro x hx
    obtain ⟨hInv, ⟨before, hBefore, hHistory⟩ | hDone⟩ := hx
    · obtain ⟨act, x', hAct, hStep⟩ := exists_step hInv hBefore hLength
      have hNext : Followed s transactions bundles assignments x' := by
        have hFollowed := followed_step hInv hBefore hAct hStep
        rwa [Followed, Returned, hHistory] at hFollowed
      exact Or.inr ⟨act, x', hAct, hStep, ⟨runInv_step hInv hStep, hNext⟩,
        stepsLeft_lt hInv.session hAct hStep⟩
    · exact Or.inl hDone
  obtain ⟨acts, s', hRun, hActs, -, hReturned⟩ :=
    exists_run_of_progress hProgress ⟨hs, Or.inl ⟨calls, hAt, rfl⟩⟩
  exact ⟨acts, s', hRun, hActs, hReturned⟩

/-- A batch that is handed in without an external scheduler gets its assignments at once. -/
theorem submit_starts (hs : Inv false order s) (hCount : 1 ≤ workerCount)
    {pool : AsyncWorkerPool workerCount} (hAt : s.stage = .idle pool)
    (transactions : List Transaction) (bundles : List Bundle) :
    ∃ assignments s', s.step heap order (.submit transactions bundles) = some s' ∧
      s'.stage = .processing transactions bundles assignments
        (singleCall order pool transactions bundles assignments) ∧
      s'.history = s.history ∧ assignments.length ≤ (submitted transactions bundles).length := by
  have hClient : s.engine.schedulerClient = none := by
    have hRoute := hs.route
    rwa [Option.isSome_eq_false_iff, Option.isNone_iff_eq_none] at hRoute
  obtain ⟨assignments, used, hSchedule, -, hIds, hUsed⟩ := SchedulerEngine.schedule_ids heap hCount
    hs.threshold (batchItems order transactions bundles)
  refine ⟨assignments, { s with
    engine := { s.engine with
      adaptiveScheduler := (SchedulerEngine.schedule heap s.engine.adaptiveScheduler
        (batchItems order transactions bundles)).1 }
    stage := .processing transactions bundles assignments
      (singleCall order pool transactions bundles assignments) }, ?_, rfl, rfl, ?_⟩
  · simp only [step, hAt, submit, hClient, hSchedule]
  · have hPlaced := hIds.length_eq
    have hTxs := hUsed.length_eq
    have hSplit := (List.filter_append_perm ExecutionUnitData.isBundle
      (batchItems order transactions bundles)).length_eq
    have hItems : (batchItems order transactions bundles).length =
        (submitted transactions bundles).length := List.length_map _
    simp only [List.length_append, List.length_map] at hPlaced hTxs hSplit
    omega

end Steps

/-! ## Main result -/

/-- From a state of a session on.
* `started`: a batch that is handed in without an external scheduler is in progress at once.
* `enabled`, `bounded`: while a batch is in progress the caller or a worker has a step, and there
  are no more than so many of them, in any order and whatever the client does meanwhile.
* `returns`: they lead to the return of the batch, with a result and a pool like a new one. -/
structure Returning (heap : PrioGraphScheduler.BinaryHeap) (external : Bool) (order : AccountOrder)
    (s : BatchSession workerCount) : Prop where
  started : external = false → 1 ≤ workerCount → ∀ pool, s.stage = .idle pool →
    ∀ transactions bundles, ∃ assignments s',
      s.step heap order (.submit transactions bundles) = some s' ∧
      s'.stage = .processing transactions bundles assignments
        (singleCall order pool transactions bundles assignments) ∧
      s'.history = s.history ∧ assignments.length ≤ (submitted transactions bundles).length
  enabled : ∀ transactions bundles assignments calls,
    s.stage = .processing transactions bundles assignments calls → assignments.length < 2 ^ 63 →
      ∃ act s', act.ofBatch = true ∧ s.step heap order act = some s'
  bounded : ∀ acts s', run (step heap order) s acts = some s' →
    (∀ act ∈ acts, act.ofBatch = true ∨ ∃ own, act = .client own) →
      acts.countP Act.ofBatch ≤ s.stepsLeft 0
  returns : ∀ transactions bundles assignments calls,
    s.stage = .processing transactions bundles assignments calls → assignments.length < 2 ^ 63 →
      ∃ acts s', run (step heap order) s acts = some s' ∧
        (∀ act ∈ acts, act.ofBatch = true) ∧ Returned s transactions bundles assignments s'

theorem reachable_returning {s : BatchSession workerCount}
    (h : Reachable (step heap order) (new external workerCount) s) :
    Returning heap external order s := by
  have hs : RunInv external order s :=
    h.invariant (fun _ _ _ hs hStep => runInv_step hs hStep) runInv_new
  refine ⟨?_, fun _ _ _ _ hAt hLength => exists_step hs hAt hLength, ?_,
    fun _ _ _ _ hAt hLength => exists_returned hs hAt hLength⟩
  · intro hExternal hCount pool hAt transactions bundles
    subst hExternal
    exact submit_starts hs.session hCount hAt transactions bundles
  · intro acts s' hRun hActs
    have hLower : ∀ (x : BatchSession workerCount) act x', RunInv external order x →
        (act.ofBatch = true ∨ ∃ own, act = .client own) → x.step heap order act = some x' →
          x'.stepsLeft 0 + (if act.ofBatch then 1 else 0) ≤ x.stepsLeft 0 := by
      intro x act x' hx hAct hStep
      rcases hAct with hOwn | ⟨own, rfl⟩
      · rw [if_pos hOwn]
        exact stepsLeft_lt hx.session hOwn hStep
      · exact (client_stepsLeft hStep).le
    exact (Nat.le_add_right _ _).trans (countP_add_le_of_lowers Act.ofBatch (fun x => x.stepsLeft 0)
      (fun _ _ _ hx _ hStep => runInv_step hx hStep) hLower hRun hs hActs)

/-- A transaction that is handed in without an external scheduler. -/
def handedIn : List (Act 1) := [.submit [Transaction.new "tx" [] 1 1] []]

theorem reachable_returning_handedIn :
    ∃ s, run (step (fun _ => Foundation.PriorityQueue.MaxHeap.ofList _) .listed) (new false 1)
        handedIn = some s ∧
      s.stepsLeft 0 = 15 ∧
      Returning (fun _ => Foundation.PriorityQueue.MaxHeap.ofList _) false .listed s := by
  obtain ⟨s, hRun, hLeft⟩ : ∃ s, run (step (fun _ => Foundation.PriorityQueue.MaxHeap.ofList _)
      .listed) (new false 1) handedIn = some s ∧ s.stepsLeft 0 = 15 := ⟨_, rfl, rfl⟩
  exact ⟨s, hRun, hLeft, reachable_returning ⟨_, hRun⟩⟩

end BatchSession

end Blunder
