import Blunder.Engine.Dispatch
import Blunder.Foundation.Decimal
import Blunder.Foundation.HashMap
import Blunder.Scheduler.Adaptive

/-!
# The TPU pipeline

`TpuPipeline::process_batch` puts bundles and transactions into two maps, schedules the
values of the maps and sends each scheduled unit, taken out of its map, to its worker.
The values come in any order. The call returns without waiting; the workers run between
any two of its steps. The order of the assignments orders the units of one queue only.

* `step_inv`: a worker handles only units placed on it.
* `reach_failure`: of two placed units on different workers that share an account, each
  can be the one that fails.
* `failsBecauseOf_iff`: these are the only failures.
-/

namespace Blunder.TpuPipeline

open Foundation.HashMap Foundation.Transition AsyncWorkerPool

variable {workerCount : ℕ}

/-! ## Processing a batch -/

def bundleMap (bundles : List Bundle) : Map UInt64 Bundle :=
  collect (bundles.map fun bundle => (bundle.id, bundle))

def txMap (looseTxs : List Transaction) : Map String Transaction :=
  collect (looseTxs.map fun tx => (tx.signature, tx))

/-- The units that are still to be sent. -/
structure UnitMaps where
  bundles : Map UInt64 Bundle
  txs : Map String Transaction

/-- Take the unit of an assignment out of its map. The unit is missing when it was
already taken. -/
def UnitMaps.take (maps : UnitMaps) (a : WorkerAssignment) :
    Except MevError (Option SchedulableUnit × UnitMaps) :=
  if a.isBundle then
    match Foundation.Decimal.parseU64 a.unitId with
    | none => .error (.invalidTransaction ("Invalid bundle ID: " ++ a.unitId))
    | some bundleId =>
      .ok ((maps.bundles.lookup bundleId).map .bundle,
        { maps with bundles := maps.bundles.erase bundleId })
  else
    .ok ((maps.txs.lookup a.unitId).map .transaction, { maps with txs := maps.txs.erase a.unitId })

/-- The point that a call has reached. -/
inductive TpuPc
  | dispatching (assignments : List WorkerAssignment) (maps : UnitMaps)
  | counting (assignments : List WorkerAssignment) (maps : UnitMaps)
  | returned (result : Except MevError Unit)

structure TpuRun (workerCount : ℕ) where
  pc : TpuPc
  pool : AsyncWorkerPool workerCount

/-- The call after scheduling. `bundleValues` and `txValues` are the values of the maps
in the order in which they come out. -/
def processBatch (heap : PrioGraphScheduler.BinaryHeap) (scheduler : AdaptiveScheduler workerCount)
    (pool : AsyncWorkerPool workerCount) (bundles : List Bundle) (looseTxs : List Transaction)
    (bundleValues : List Bundle) (txValues : List Transaction) :
    Except Panic (TpuRun workerCount) :=
  (scheduler.schedule heap bundleValues txValues).2.map fun assignments =>
    { pc := .dispatching assignments ⟨bundleMap bundles, txMap looseTxs⟩
      pool }

/-- The next step of the call. -/
def TpuRun.callerStep (s : TpuRun workerCount) : Option (TpuRun workerCount) :=
  match s.pc with
  | .dispatching [] _ => some { s with pc := .returned (.ok ()) }
  | .dispatching (a :: assignments) maps =>
    match maps.take a with
    | .error e => some { s with pc := .returned (.error e) }
    | .ok (none, maps) => some { s with pc := .dispatching assignments maps }
    | .ok (some unit, maps) =>
      match s.pool.send a.workerId (.ofUnit unit) with
      | .ok pool => some ⟨.counting assignments maps, pool⟩
      | .error e => some { s with pc := .returned (.error e) }
  | .counting assignments maps => some ⟨.dispatching assignments maps, s.pool.countPending⟩
  | .returned _ => none

inductive TpuAct (workerCount : ℕ)
  | caller
  | work (w : Fin workerCount)

def TpuRun.step (s : TpuRun workerCount) : TpuAct workerCount → Option (TpuRun workerCount)
  | .caller => s.callerStep
  | .work w => (s.pool.workStep w).map fun pool => { s with pool }

/-! ## Placed units -/

/-- The units that the assignments take out of the maps, with their workers. -/
def placementFrom : List WorkerAssignment → UnitMaps → Plan
  | [], _ => []
  | a :: assignments, maps =>
    match maps.take a with
    | .error _ => []
    | .ok (none, maps) => placementFrom assignments maps
    | .ok (some unit, maps) => (a.workerId, unit) :: placementFrom assignments maps

def placement (bundles : List Bundle) (looseTxs : List Transaction)
    (assignments : List WorkerAssignment) : Plan :=
  placementFrom assignments ⟨bundleMap bundles, txMap looseTxs⟩

/-- A worker fails to acquire the accounts of `unit`, one of which an executing worker
holds for `unit'`. -/
def FailsBecauseOf (s : TpuRun workerCount) (unit unit' : SchedulableUnit) : Prop :=
  ∃ v w n pool', (s.pool.workers v).phase = .acquiring unit ∧
    (s.pool.workers w).phase = .executing unit' n ∧
    ¬ Disjoint unit.allAccounts unit'.allAccounts ∧ s.pool.workStep v = some pool' ∧
    (pool'.workers v).phase = .completing unit (.error .lockAcquisitionFailed)

/-! ## The invariant of a call -/

/-- The assignments and the maps at a point where units are still to be sent. -/
def TpuPc.remaining : TpuPc → Option (List WorkerAssignment × UnitMaps)
  | .dispatching assignments maps => some (assignments, maps)
  | .counting assignments maps => some (assignments, maps)
  | .returned _ => none

/-- The workers handle placed units only, and the units still to be sent are placed. -/
structure TpuInv (placed : Plan) (s : TpuRun workerCount) : Prop where
  locks : Inv s.pool
  planned : Planned placed s.pool
  remaining : ∀ assignments maps, s.pc.remaining = some (assignments, maps) →
    ∀ entry ∈ placementFrom assignments maps, entry ∈ placed

section Invariant

variable {placed : Plan} {s s' : TpuRun workerCount}

/-- Sending the unit of one assignment. -/
theorem dispatch_inv {a : WorkerAssignment} {assignments : List WorkerAssignment}
    {maps : UnitMaps} (h : TpuInv placed s) (hPc : s.pc = .dispatching (a :: assignments) maps)
    (hStep : s.callerStep = some s') : TpuInv placed s' := by
  have hPlaced := h.remaining (a :: assignments) maps (by rw [hPc]; rfl)
  rw [placementFrom] at hPlaced
  simp only [TpuRun.callerStep, hPc] at hStep
  rcases hTake : maps.take a with e | ⟨_ | unit, maps'⟩
  · simp only [hTake] at hStep
    cases hStep
    exact ⟨h.locks, h.planned, fun _ _ hRest => by cases hRest⟩
  · simp only [hTake] at hStep hPlaced
    cases hStep
    refine ⟨h.locks, h.planned, fun rest restMaps hRest => ?_⟩
    cases hRest
    exact hPlaced
  · simp only [hTake] at hStep hPlaced
    rcases send_cases s.pool a.workerId (.ofUnit unit) with ⟨w, hw, -, hSend⟩ | ⟨e, hSend⟩
    · simp only [hSend] at hStep
      cases hStep
      refine ⟨enqueue_inv h.locks w _, enqueue_planned h.planned ?_, fun rest restMaps hRest => ?_⟩
      · rw [hw]
        exact hPlaced _ List.mem_cons_self
      · cases hRest
        exact fun entry hEntry => hPlaced entry (List.mem_cons_of_mem _ hEntry)
    · simp only [hSend] at hStep
      cases hStep
      exact ⟨h.locks, h.planned, fun _ _ hRest => by cases hRest⟩

theorem step_inv {act : TpuAct workerCount} (h : TpuInv placed s) (hStep : s.step act = some s') :
    TpuInv placed s' := by
  cases act with
  | caller =>
    cases hPc : s.pc with
    | dispatching assignments maps =>
      cases assignments with
      | nil =>
        simp only [TpuRun.step, TpuRun.callerStep, hPc] at hStep
        cases hStep
        exact ⟨h.locks, h.planned, fun _ _ hRest => by cases hRest⟩
      | cons a assignments => exact dispatch_inv h hPc hStep
    | counting assignments maps =>
      simp only [TpuRun.step, TpuRun.callerStep, hPc] at hStep
      cases hStep
      refine ⟨h.locks, h.planned, fun rest restMaps hRest => ?_⟩
      cases hRest
      exact h.remaining assignments maps (by rw [hPc]; rfl)
    | returned result =>
      simp only [TpuRun.step, TpuRun.callerStep, hPc] at hStep
      cases hStep
  | work w =>
    obtain ⟨pool, hWork, rfl⟩ := Option.map_eq_some_iff.mp hStep
    exact ⟨workStep_inv h.locks hWork, workStep_planned h.planned hWork, h.remaining⟩

end Invariant

/-! ## Runs that reach a failure -/

section Failure

/-- The workers may run by themselves at any point of the call. -/
theorem reach_of_workers {s : TpuRun workerCount} {pool : AsyncWorkerPool workerCount}
    (h : Reachable workStep s.pool pool) : Reachable TpuRun.step s { s with pool } := by
  have hStep : ∀ (pool : AsyncWorkerPool workerCount) w pool', pool.workStep w = some pool' →
      Reachable TpuRun.step { s with pool } { s with pool := pool' } := by
    intro pool w pool' hWork
    refine Reachable.single (a := .work w) ?_
    rw [TpuRun.step, hWork]
    rfl
  exact h.simulate (fun pool => { s with pool }) hStep

/-- The caller alone sends all placed units when the assignments name workers of the
pool. -/
theorem reach_dispatched {assignments : List WorkerAssignment}
    (hWorkers : ∀ a ∈ assignments, a.workerId < workerCount) (maps : UnitMaps)
    {pool : AsyncWorkerPool workerCount} (hLoaded : Loaded pool) :
    ∃ s, Reachable TpuRun.step ⟨.dispatching assignments maps, pool⟩ s ∧
      Loaded s.pool ∧ QueuesGrow pool s.pool ∧
      Queued (placementFrom assignments maps) s.pool := by
  induction assignments generalizing maps pool with
  | nil => exact ⟨_, Reachable.refl _, hLoaded, fun _ _ h => h, Queued.nil _⟩
  | cons a assignments ih =>
    have hRest : ∀ b ∈ assignments, b.workerId < workerCount :=
      fun b hb => hWorkers b (List.mem_cons_of_mem _ hb)
    unfold placementFrom
    rcases hTake : maps.take a with e | ⟨_ | unit, maps'⟩
    · -- A bundle id that does not parse ends the call; nothing is placed from here on.
      exact ⟨_, Reachable.refl _, hLoaded, fun _ _ h => h, Queued.nil _⟩
    · obtain ⟨s, hReach, hEnd⟩ := ih hRest maps' hLoaded
      refine ⟨s, (Reachable.single (a := .caller) ?_).trans hReach, hEnd⟩
      simp only [TpuRun.step, TpuRun.callerStep, hTake]
    · let v : Fin workerCount := ⟨a.workerId, hWorkers a List.mem_cons_self⟩
      obtain ⟨s, hReach, hEnd, hGrow, hQueued⟩ := ih hRest maps'
        (countPending_loaded (enqueue_loaded hLoaded v unit))
      have hSend : TpuRun.step ⟨.dispatching (a :: assignments) maps, pool⟩ .caller =
          some ⟨.counting assignments maps', pool.enqueue v (.ofUnit unit)⟩ := by
        have hPool := hLoaded.send v (.ofUnit unit)
        simp only [TpuRun.step, TpuRun.callerStep, hTake]
        rw [hPool]
      have hCount : TpuRun.step ⟨.counting assignments maps', pool.enqueue v (.ofUnit unit)⟩
          .caller = some ⟨.dispatching assignments maps',
            (pool.enqueue v (.ofUnit unit)).countPending⟩ := rfl
      exact ⟨s, (Reachable.single hSend).trans ((Reachable.single hCount).trans hReach), hEnd,
        QueuesGrow.of_enqueue hGrow, Queued.cons hQueued hGrow⟩

/-- Whatever the priorities of two units on different workers that share an account: the
first fails when it is about to acquire while the second one is executing. -/
theorem reach_failure {assignments : List WorkerAssignment}
    (hWorkers : ∀ a ∈ assignments, a.workerId < workerCount) (maps : UnitMaps)
    {pool : AsyncWorkerPool workerCount} (hIdle : Idle pool) {v w : Fin workerCount} (hvw : v ≠ w)
    {unit unit' : SchedulableUnit} (hUnit : (v.val, unit) ∈ placementFrom assignments maps)
    (hUnit' : (w.val, unit') ∈ placementFrom assignments maps)
    (hShared : ¬ Disjoint unit.allAccounts unit'.allAccounts) :
    ∃ s, Reachable TpuRun.step ⟨.dispatching assignments maps, pool⟩ s ∧
      FailsBecauseOf s unit unit' := by
  obtain ⟨sent, hSent, hLoaded, -, hQueued⟩ := reach_dispatched hWorkers maps hIdle.loaded
  obtain ⟨pool', hReach, hAcquiring, hExecuting, hLocks⟩ := reach_holding hLoaded hvw
    (hQueued v unit hUnit) (WorkItem.unit?_ofUnit _) (hQueued w unit' hUnit')
    (WorkItem.unit?_ofUnit _)
  have hBusy : ¬ Disjoint unit.allAccounts pool'.globalLocks := by
    rwa [hLocks]
  have hReject := workStep_of_step (AsyncWorker.Step.reject_of_phase hAcquiring hBusy)
  refine ⟨_, hSent.trans (reach_of_workers hReach), v, w, _, _, hAcquiring, hExecuting, hShared,
    hReject, ?_⟩
  simp only [Function.update_self]

end Failure

/-! ## Main result -/

theorem threshold_of_reachable {heap : PrioGraphScheduler.BinaryHeap}
    {scheduler : AdaptiveScheduler workerCount}
    (hScheduler : Reachable (AdaptiveScheduler.step heap) (.new workerCount) scheduler) :
    scheduler.loadMonitor.highThreshold = 2000 := by
  refine hScheduler.invariant (I := fun s => s.loadMonitor.highThreshold = 2000) ?_ rfl
  intro s batch s' hs hStep
  cases hStep
  rw [AdaptiveScheduler.schedule_threshold, hs]

/-- The workers of the assignments of a small batch are those of the pool. -/
theorem schedule_workers {heap : PrioGraphScheduler.BinaryHeap} (hCount : 1 ≤ workerCount)
    {scheduler : AdaptiveScheduler workerCount}
    (hScheduler : Reachable (AdaptiveScheduler.step heap) (.new workerCount) scheduler)
    {bundles : List Bundle} {looseTxs : List Transaction}
    (hLe : (batchUnits bundles looseTxs).length ≤ 2000) :
    ∃ assignments, (scheduler.schedule heap bundles looseTxs).2 = .ok assignments ∧
      ∀ a ∈ assignments, a.workerId < workerCount := by
  obtain ⟨assignments, hSchedule, hAssigns⟩ :=
    PrioGraphScheduler.schedule_spec heap hCount bundles looseTxs
  refine ⟨assignments, ?_, hAssigns.workerId_lt⟩
  rw [AdaptiveScheduler.schedule_of_le (threshold_of_reachable hScheduler) hLe, hSchedule]

theorem start_inv {pool : AsyncWorkerPool workerCount} (hIdle : Idle pool)
    (assignments : List WorkerAssignment) (maps : UnitMaps) :
    TpuInv (placementFrom assignments maps) ⟨.dispatching assignments maps, pool⟩ := by
  refine ⟨hIdle.inv, hIdle.planned _, ?_⟩
  intro rest restMaps hRest
  cases hRest
  exact fun _ h => h

/-- A unit that fails and the unit in its way are placed on different workers. -/
theorem TpuInv.placed_of_fails {placed : Plan} {s : TpuRun workerCount} (h : TpuInv placed s)
    {unit unit' : SchedulableUnit} (hFails : FailsBecauseOf s unit unit') :
    ∃ v w : Fin workerCount, v ≠ w ∧ (v.val, unit) ∈ placed ∧ (w.val, unit') ∈ placed ∧
      ¬ Disjoint unit.allAccounts unit'.allAccounts := by
  obtain ⟨v, w, n, pool', hv, hw, hShared, -, -⟩ := hFails
  refine ⟨v, w, ?_, ?_, ?_, hShared⟩
  · -- One worker is not in two phases.
    rintro rfl
    rw [hv] at hw
    cases hw
  · exact h.planned v unit (Or.inr (by rw [hv]; rfl))
  · exact h.planned w unit' (Or.inr (by rw [hw]; rfl))

/-- In a batch of at most 2000 units one unit can fail because of another exactly when
the two share an account and are placed on different workers. -/
theorem failsBecauseOf_iff (heap : PrioGraphScheduler.BinaryHeap) (hCount : 1 ≤ workerCount)
    {scheduler : AdaptiveScheduler workerCount}
    (hScheduler : Reachable (AdaptiveScheduler.step heap) (.new workerCount) scheduler)
    {pool : AsyncWorkerPool workerCount} (hIdle : Idle pool) {bundles bundleValues : List Bundle}
    {looseTxs txValues : List Transaction} (hSize : bundles.length + looseTxs.length ≤ 2000)
    (hBundles : IsValues (bundleMap bundles) bundleValues)
    (hTxs : IsValues (txMap looseTxs) txValues) :
    ∃ assignments start, (scheduler.schedule heap bundleValues txValues).2 = .ok assignments ∧
      processBatch heap scheduler pool bundles looseTxs bundleValues txValues = .ok start ∧
      ∀ unit unit', (∃ s, Reachable TpuRun.step start s ∧ FailsBecauseOf s unit unit') ↔
        ∃ v w : Fin workerCount, v ≠ w ∧
          (v.val, unit) ∈ placement bundles looseTxs assignments ∧
          (w.val, unit') ∈ placement bundles looseTxs assignments ∧
          ¬ Disjoint unit.allAccounts unit'.allAccounts := by
  have hLe : (batchUnits bundleValues txValues).length ≤ 2000 := by
    have hB := hBundles.length_le
    have hT := hTxs.length_le
    rw [List.length_map] at hB hT
    rw [length_batchUnits]
    omega
  obtain ⟨assignments, hSchedule, hWorkers⟩ := schedule_workers hCount hScheduler hLe
  refine ⟨assignments, ⟨.dispatching assignments ⟨bundleMap bundles, txMap looseTxs⟩, pool⟩,
    hSchedule, ?_, ?_⟩
  · rw [processBatch, hSchedule]
    rfl
  intro unit unit'
  constructor
  · rintro ⟨s, hReach, hFails⟩
    have hInv := hReach.invariant (fun _ _ _ h hStep => step_inv h hStep)
      (start_inv hIdle assignments ⟨bundleMap bundles, txMap looseTxs⟩)
    exact hInv.placed_of_fails hFails
  · rintro ⟨v, w, hvw, hUnit, hUnit', hShared⟩
    exact reach_failure hWorkers _ hIdle hvw hUnit hUnit' hShared

/-- The dearer one of two transactions that write account 1. -/
def highTx : Transaction :=
  Transaction.new "high" [AccountMeta.new (Pubkey.filled 1) true] 1000000 9

/-- The cheaper one. -/
def lowTx : Transaction :=
  Transaction.new "low" [AccountMeta.new (Pubkey.filled 1) true] 1000000 5

/-- The map of the two gives them out in the other order. -/
theorem isValues_highLow : IsValues (txMap [highTx, lowTx]) [lowTx, highTx] := rfl

/-- The account of the first one keeps the second one off its worker. -/
theorem schedule_highLow :
    ((AdaptiveScheduler.new 2).schedule (fun _ => Foundation.PriorityQueue.MaxHeap.ofList _)
      [] [lowTx, highTx]).2 =
        .ok [SchedulableUnit.assignment (.transaction highTx) 0,
          SchedulableUnit.assignment (.transaction lowTx) 1] :=
  rfl

theorem placement_highLow :
    placement [] [highTx, lowTx]
      [SchedulableUnit.assignment (.transaction highTx) 0,
        SchedulableUnit.assignment (.transaction lowTx) 1] =
      [(0, .transaction highTx), (1, .transaction lowTx)] :=
  rfl

theorem failsBecauseOf_iff_highLow :
    ∃ assignments start, ((AdaptiveScheduler.new 2).schedule
        (fun _ => Foundation.PriorityQueue.MaxHeap.ofList _) [] [lowTx, highTx]).2 =
          .ok assignments ∧
      processBatch (fun _ => Foundation.PriorityQueue.MaxHeap.ofList _) (AdaptiveScheduler.new 2)
        (spawn 2) [] [highTx, lowTx] [] [lowTx, highTx] = .ok start ∧
      ∀ unit unit', (∃ s, Reachable TpuRun.step start s ∧ FailsBecauseOf s unit unit') ↔
        ∃ v w : Fin 2, v ≠ w ∧
          (v.val, unit) ∈ placement [] [highTx, lowTx] assignments ∧
          (w.val, unit') ∈ placement [] [highTx, lowTx] assignments ∧
          ¬ Disjoint unit.allAccounts unit'.allAccounts :=
  failsBecauseOf_iff _ (by decide) (Reachable.refl _) ⟨fun _ => rfl, rfl⟩ (by decide) rfl
    isValues_highLow

/-- The dearer transaction fails because of the cheaper one. -/
theorem not_priority_honoured :
    ¬ ∀ (heap : PrioGraphScheduler.BinaryHeap) (workerCount : ℕ), 1 ≤ workerCount →
      ∀ scheduler, Reachable (AdaptiveScheduler.step heap) (.new workerCount) scheduler →
      ∀ pool : AsyncWorkerPool workerCount, Idle pool →
      ∀ (bundles bundleValues : List Bundle) (looseTxs txValues : List Transaction),
        bundles.length + looseTxs.length ≤ 2000 →
        IsValues (bundleMap bundles) bundleValues → IsValues (txMap looseTxs) txValues →
        ∀ start s, processBatch heap scheduler pool bundles looseTxs bundleValues txValues =
            .ok start →
          Reachable TpuRun.step start s → ∀ unit unit', FailsBecauseOf s unit unit' →
            ¬ (PrioGraphScheduler.unitNode unit').priority <
              (PrioGraphScheduler.unitNode unit).priority := by
  intro hAll
  have hIdle : Idle (spawn 2) := ⟨fun _ => rfl, rfl⟩
  have hHigh : ((0 : Fin 2).val, SchedulableUnit.transaction highTx) ∈
      placement [] [highTx, lowTx] _ :=
    placement_highLow ▸ List.mem_cons_self
  have hLow : ((1 : Fin 2).val, SchedulableUnit.transaction lowTx) ∈
      placement [] [highTx, lowTx] _ :=
    placement_highLow ▸ List.mem_cons_of_mem _ List.mem_cons_self
  have hShared : ¬ Disjoint (SchedulableUnit.transaction highTx).allAccounts
      (SchedulableUnit.transaction lowTx).allAccounts := by
    decide
  obtain ⟨s, hReach, hFails⟩ := reach_failure (by decide) _ hIdle (by decide) hHigh hLow hShared
  refine hAll (fun _ => Foundation.PriorityQueue.MaxHeap.ofList _) 2 (by decide)
    (AdaptiveScheduler.new 2) (Reachable.refl _) (spawn 2) hIdle [] [] [highTx, lowTx]
    [lowTx, highTx] (by decide) rfl isValues_highLow _ s ?_ hReach _ _ hFails ?_
  · rw [processBatch, schedule_highLow]
    rfl
  · decide

end Blunder.TpuPipeline
