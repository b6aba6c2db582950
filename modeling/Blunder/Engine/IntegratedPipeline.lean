import Blunder.Engine.Dispatch
import Blunder.Engine.SchedulerEngine
import Blunder.Foundation.HashMap

/-!
# The integrated pipeline

`IntegratedPipeline::process_batch` turns the units of a batch into execution units,
schedules them, sends each to its worker as a work item and waits for the completions.
The work item of a transaction has the accounts of the transaction; the work item of a
bundle has none. A state is the point that the call has reached, with the pool; the
workers run between any two steps of the call.

* `step_inv`: what a worker handles stands for a submitted unit placed on it.
* `reach_both`: two placed units on different workers get to execute together when one
  of them is a bundle.
* `noOverlap_iff`: no interleaving overlaps units that share accounts exactly when no
  bundle shares an account with a unit placed on another worker.
-/

namespace Blunder.IntegratedPipeline

open Foundation.HashMap Foundation.Transition AsyncWorkerPool

variable {workerCount : ℕ}

/-! ## Conversions -/

/-- The submitted units in the order of the item list: transactions first. -/
def submitted (transactions : List Transaction) (bundles : List Bundle) : List SchedulableUnit :=
  transactions.map .transaction ++ bundles.map .bundle

/-- The execution unit of a submitted unit. -/
def toItem (order : AccountOrder) : SchedulableUnit → ExecutionUnitData
  | .transaction tx =>
    .transaction tx.signature tx.computeUnitPrice
      (tx.accounts.map fun account => account.pubkey.toBytes)
  | .bundle b =>
    .bundle (toString b.id) b.tip ((order.toList b).map Pubkey.toBytes) b.transactions.length

def batchItems (order : AccountOrder) (transactions : List Transaction) (bundles : List Bundle) :
    List ExecutionUnitData :=
  (submitted transactions bundles).map (toItem order)

def convertExecutionUnitToTransaction : ExecutionUnitData → Except MevError Transaction
  | .transaction id _ accounts => .ok (SchedulerEngine.defaultTransaction id accounts)
  | _ => .error (.schedulerError "Expected Transaction variant")

def convertExecutionUnitToBundle : ExecutionUnitData → Except MevError Bundle
  | .bundle id tip _ _ =>
    match Foundation.Decimal.parseU64 id with
    | none => .error (.invalidTransaction ("Invalid bundle ID: " ++ id))
    | some bundleId => .ok (SchedulerEngine.defaultBundle bundleId tip)
  | _ => .error (.schedulerError "Expected Bundle variant")

def convertToWorkItem (item : ExecutionUnitData) : Except MevError WorkItem :=
  match item with
  | .transaction .. => (convertExecutionUnitToTransaction item).map .transaction
  | .bundle .. => (convertExecutionUnitToBundle item).map .bundle

/-! ## Processing a batch -/

structure ExecutionResult where
  unitId : String
  workerId : ℕ
  success : Bool
  error : Option String
deriving DecidableEq

structure BatchResult where
  totalProcessed : ℕ
  successful : ℕ
  failed : ℕ
  results : List ExecutionResult
deriving DecidableEq

/-- A dispatch result takes over the first completion with its unit id. -/
def mergeCompletion (completions : List WorkCompletion) (result : ExecutionResult) :
    ExecutionResult :=
  match completions.find? fun completion => decide (completion.unitId = result.unitId) with
  | some completion => { result with success := completion.success, error := completion.error }
  | none => result

def batchResult (dispatchResults : List ExecutionResult) (completions : List WorkCompletion) :
    BatchResult :=
  let results := dispatchResults.map (mergeCompletion completions)
  { totalProcessed := results.length
    successful := results.countP (·.success)
    failed := results.countP (!·.success)
    results }

/-- The point that a call has reached. -/
inductive BatchPc
  | dispatching (assignments : List WorkerAssignment) (unitMap : Map String ExecutionUnitData)
    (results : List ExecutionResult)
  | counting (assignments : List WorkerAssignment) (unitMap : Map String ExecutionUnitData)
    (results : List ExecutionResult)
  | loading (results : List ExecutionResult)
  | receiving (results : List ExecutionResult) (pending : ℕ) (completions : List WorkCompletion)
  | uncounting (results : List ExecutionResult) (pending : ℕ) (completions : List WorkCompletion)
  | returned (result : Except MevError BatchResult)

structure BatchRun (workerCount : ℕ) where
  pc : BatchPc
  pool : AsyncWorkerPool workerCount

/-- The call after scheduling: nothing is sent yet. -/
def processBatch (heap : PrioGraphScheduler.BinaryHeap) (order : AccountOrder)
    (scheduler : AdaptiveScheduler workerCount) (pool : AsyncWorkerPool workerCount)
    (transactions : List Transaction) (bundles : List Bundle) :
    Except Panic (BatchRun workerCount) :=
  let items := batchItems order transactions bundles
  (SchedulerEngine.schedule heap scheduler items).2.map fun assignments =>
    { pc := .dispatching assignments (collect (items.map fun item => (item.id, item))) []
      pool }

/-- The next step of the call. While it waits for a completion it has none; the mutex
around the receiver is free as there is one caller. -/
def BatchRun.callerStep (s : BatchRun workerCount) : Option (BatchRun workerCount) :=
  match s.pc with
  | .dispatching [] _ results => some { s with pc := .loading results }
  | .dispatching (a :: assignments) unitMap results =>
    match unitMap.lookup a.unitId with
    | none =>
      some ⟨.dispatching assignments unitMap
        (results ++ [⟨a.unitId, a.workerId, false, some "Work unit not found"⟩]), s.pool⟩
    | some item =>
      match convertToWorkItem item with
      | .error e => some { s with pc := .returned (.error e) }
      | .ok work =>
        match s.pool.send a.workerId work with
        | .ok pool =>
          some ⟨.counting assignments (unitMap.erase a.unitId)
            (results ++ [⟨a.unitId, a.workerId, true, none⟩]), pool⟩
        | .error e =>
          some ⟨.dispatching assignments (unitMap.erase a.unitId)
            (results ++ [⟨a.unitId, a.workerId, false, some e.display⟩]), s.pool⟩
  | .counting assignments unitMap results =>
    some ⟨.dispatching assignments unitMap results, s.pool.countPending⟩
  | .loading results =>
    if s.pool.pendingWork = 0 then some { s with pc := .returned (.ok (batchResult results [])) }
    else some { s with pc := .receiving results s.pool.pendingWork.toNat [] }
  | .receiving results pending completions =>
    if completions.length < pending then
      s.pool.receiveCompletion.map fun (completion, pool) =>
        ⟨.uncounting results pending (completions ++ [completion]), pool⟩
    else some { s with pc := .returned (.ok (batchResult results completions)) }
  | .uncounting results pending completions =>
    some ⟨.receiving results pending completions, s.pool.uncountPending⟩
  | .returned _ => none

inductive BatchAct (workerCount : ℕ)
  | caller
  | work (w : Fin workerCount)

def BatchRun.step (s : BatchRun workerCount) : BatchAct workerCount → Option (BatchRun workerCount)
  | .caller => s.callerStep
  | .work w => (s.pool.workStep w).map fun pool => { s with pool }

/-! ## Submitted units -/

/-- The unit that a map from ids to units keeps for an id: the last one. -/
def owner (units : List SchedulableUnit) (id : String) : Option SchedulableUnit :=
  units.reverse.find? fun unit => decide (unit.unitId = id)

/-- The submitted units that the assignments send to a worker: each id once, with the
first assignment that names it. -/
def placementFrom : List WorkerAssignment → Map String SchedulableUnit → Plan
  | [], _ => []
  | a :: assignments, units =>
    match units.lookup a.unitId with
    | none => placementFrom assignments units
    | some unit => (a.workerId, unit) :: placementFrom assignments (units.erase a.unitId)

def placement (units : List SchedulableUnit) (assignments : List WorkerAssignment) : Plan :=
  placementFrom assignments (collect (units.map fun unit => (unit.unitId, unit)))

/-- Two workers that execute at the same time execute units whose submitted forms have
no account in common. -/
def NoOverlap (units : List SchedulableUnit) (s : BatchRun workerCount) : Prop :=
  ∀ v w, v ≠ w → ∀ x m y n, (s.pool.workers v).phase = .executing x m →
    (s.pool.workers w).phase = .executing y n →
    ∀ unit unit', owner units x.unitId = some unit → owner units y.unitId = some unit' →
      Disjoint unit.allAccounts unit'.allAccounts

/-- No bundle shares an account with a unit placed on another worker. -/
def BundlesApart (workerCount : ℕ) (placed : Plan) : Prop :=
  ∀ v w : Fin workerCount, v ≠ w → ∀ unit unit', (v.val, unit) ∈ placed → (w.val, unit') ∈ placed →
    unit.isAtomic = true → Disjoint unit.allAccounts unit'.allAccounts

/-! ## What the conversions keep -/

/-- The unit that a worker executes for a submitted unit. -/
def workUnit : SchedulableUnit → SchedulableUnit
  | .transaction tx =>
    .transaction (SchedulerEngine.defaultTransaction tx.signature
      (tx.accounts.map fun account => account.pubkey.toBytes))
  | .bundle b => .bundle (SchedulerEngine.defaultBundle b.id b.tip)

theorem convertToWorkItem_toItem (order : AccountOrder) (unit : SchedulableUnit) :
    convertToWorkItem (toItem order unit) = .ok (.ofUnit (workUnit unit)) := by
  cases unit with
  | transaction tx => rfl
  | bundle b =>
    simp only [toItem, convertToWorkItem, convertExecutionUnitToBundle,
      Foundation.Decimal.parseU64_toString]
    rfl

theorem workUnit_unitId (unit : SchedulableUnit) : (workUnit unit).unitId = unit.unitId := by
  cases unit <;> rfl

theorem toItem_id (order : AccountOrder) (unit : SchedulableUnit) :
    (toItem order unit).id = unit.unitId := by
  cases unit <;> rfl

/-- A transaction keeps its accounts. -/
theorem workUnit_allAccounts_of_transaction {unit : SchedulableUnit} (h : unit.isAtomic = false) :
    (workUnit unit).allAccounts = unit.allAccounts := by
  cases unit with
  | bundle b => cases h
  | transaction tx =>
    simp only [workUnit, SchedulableUnit.allAccounts, SchedulerEngine.defaultTransaction,
      Transaction.new, Transaction.allAccounts, List.map_map]
    rfl

/-- A bundle loses them all. -/
theorem workUnit_allAccounts_of_bundle {unit : SchedulableUnit} (h : unit.isAtomic = true) :
    (workUnit unit).allAccounts = ∅ := by
  cases unit with
  | bundle b => rfl
  | transaction tx => cases h

/-! ## Owners and placements -/

theorem owner_eq_lookup (units : List SchedulableUnit) (id : String) :
    owner units id = (collect (units.map fun unit => (unit.unitId, unit))).lookup id := by
  rw [lookup_collect, owner, ← List.map_reverse, List.find?_map, Option.map_map]
  exact Option.map_id'.symm

theorem lookup_of_lookup_erase {units : Map String SchedulableUnit} {id id' : String}
    {unit : SchedulableUnit} (h : (units.erase id').lookup id = some unit) :
    units.lookup id = some unit := by
  by_cases hid : id = id'
  · subst hid
    rw [Finmap.lookup_erase] at h
    cases h
  · rwa [Finmap.lookup_erase_ne hid] at h

/-- A placed unit is the one that its id stands for. -/
theorem owner_of_mem_placementFrom {units : List SchedulableUnit}
    {assignments : List WorkerAssignment} {rest : Map String SchedulableUnit} {w : ℕ}
    {unit : SchedulableUnit} (hRest : ∀ id unit, rest.lookup id = some unit →
      owner units id = some unit) (h : (w, unit) ∈ placementFrom assignments rest) :
    owner units unit.unitId = some unit := by
  induction assignments generalizing rest with
  | nil => cases h
  | cons a assignments ih =>
    rw [placementFrom] at h
    cases hLookup : rest.lookup a.unitId with
    | none =>
      rw [hLookup] at h
      exact ih hRest h
    | some first =>
      rw [hLookup] at h
      rcases List.mem_cons.mp h with hFirst | hLater
      · cases hFirst
        have hOwner := hRest _ _ hLookup
        have hId : unit.unitId = a.unitId := by
          simpa using List.find?_some hOwner
        rw [hId]
        exact hOwner
      · exact ih (fun id unit hErase => hRest id unit (lookup_of_lookup_erase hErase)) hLater

theorem owner_of_mem_placement {units : List SchedulableUnit} {assignments : List WorkerAssignment}
    {w : ℕ} {unit : SchedulableUnit} (h : (w, unit) ∈ placement units assignments) :
    owner units unit.unitId = some unit := by
  refine owner_of_mem_placementFrom (fun id unit hLookup => ?_) h
  rw [owner_eq_lookup, hLookup]

/-- The map of execution units is that of the units. -/
def Tracks (order : AccountOrder) (unitMap : Map String ExecutionUnitData)
    (units : Map String SchedulableUnit) : Prop :=
  ∀ id, unitMap.lookup id = (units.lookup id).map (toItem order)

theorem tracks_collect (order : AccountOrder) (units : List SchedulableUnit) :
    Tracks order (collect ((units.map (toItem order)).map fun item => (item.id, item)))
      (collect (units.map fun unit => (unit.unitId, unit))) := by
  intro id
  have hEntries : (units.map (toItem order)).map (fun item => (item.id, item)) =
      (units.map fun unit => (unit.unitId, unit)).map fun entry => (entry.1, toItem order entry.2) := by
    simp only [List.map_map, Function.comp_def, toItem_id]
  rw [hEntries, lookup_collect_map]

theorem Tracks.erase {order : AccountOrder} {unitMap : Map String ExecutionUnitData}
    {units : Map String SchedulableUnit} (h : Tracks order unitMap units) (id : String) :
    Tracks order (unitMap.erase id) (units.erase id) := by
  intro other
  by_cases hid : other = id
  · subst hid
    rw [Finmap.lookup_erase, Finmap.lookup_erase]
    rfl
  · rw [Finmap.lookup_erase_ne hid, Finmap.lookup_erase_ne hid, h other]

/-! ## The invariant of a call -/

/-- The units that the workers execute for the placed ones. -/
def workPlan (placed : Plan) : Plan := placed.map fun entry => (entry.1, workUnit entry.2)

/-- The assignments and the map at a point where units are still to be sent. -/
def BatchPc.remaining : BatchPc → Option (List WorkerAssignment × Map String ExecutionUnitData)
  | .dispatching assignments unitMap _ => some (assignments, unitMap)
  | .counting assignments unitMap _ => some (assignments, unitMap)
  | _ => none

/-- The workers handle placed units only, and the units still to be sent are placed. -/
structure BatchInv (order : AccountOrder) (placed : Plan) (s : BatchRun workerCount) : Prop where
  locks : Inv s.pool
  planned : Planned (workPlan placed) s.pool
  remaining : ∀ assignments unitMap, s.pc.remaining = some (assignments, unitMap) →
    ∃ units, Tracks order unitMap units ∧ ∀ entry ∈ placementFrom assignments units, entry ∈ placed

section Invariant

variable {order : AccountOrder} {placed : Plan} {s s' : BatchRun workerCount}

/-- A step that ends with nothing left to send and with the same workers. -/
theorem BatchInv.finish (h : BatchInv order placed s) (hWorkers : s'.pool.workers = s.pool.workers)
    (hLocks : s'.pool.globalLocks = s.pool.globalLocks) (hPc : s'.pc.remaining = none) :
    BatchInv order placed s' := by
  refine ⟨?_, ?_, ?_⟩
  · apply h.locks.of_phase_eq hLocks
    intro v
    rw [hWorkers]
  · intro v unit hHandles
    rw [hWorkers] at hHandles
    exact h.planned v unit hHandles
  · intro assignments unitMap hRemaining
    rw [hPc] at hRemaining
    cases hRemaining

/-- Sending the unit of one assignment. -/
theorem dispatch_inv {a : WorkerAssignment} {assignments : List WorkerAssignment}
    {unitMap : Map String ExecutionUnitData} {results : List ExecutionResult}
    (h : BatchInv order placed s) (hPc : s.pc = .dispatching (a :: assignments) unitMap results)
    (hStep : s.callerStep = some s') : BatchInv order placed s' := by
  obtain ⟨units, hTracks, hPlaced⟩ := h.remaining (a :: assignments) unitMap (by rw [hPc]; rfl)
  rw [placementFrom] at hPlaced
  have hLookup := hTracks a.unitId
  simp only [BatchRun.callerStep, hPc, hLookup] at hStep
  cases hUnit : units.lookup a.unitId with
  | none =>
    simp only [hUnit, Option.map_none] at hStep hPlaced
    cases hStep
    refine ⟨h.locks, h.planned, ?_⟩
    intro rest restMap hRest
    cases hRest
    exact ⟨units, hTracks, hPlaced⟩
  | some unit =>
    simp only [hUnit, Option.map_some, convertToWorkItem_toItem] at hStep hPlaced
    have hRemaining : ∀ rest restMap,
        some (assignments, unitMap.erase a.unitId) = some (rest, restMap) →
          ∃ units, Tracks order restMap units ∧
            ∀ entry ∈ placementFrom rest units, entry ∈ placed := by
      intro rest restMap hRest
      cases hRest
      exact ⟨units.erase a.unitId, hTracks.erase _,
        fun entry hEntry => hPlaced entry (List.mem_cons_of_mem _ hEntry)⟩
    rcases send_cases s.pool a.workerId (.ofUnit (workUnit unit)) with
      ⟨w, hw, -, hSend⟩ | ⟨e, hSend⟩
    · simp only [hSend] at hStep
      cases hStep
      refine ⟨enqueue_inv h.locks w _, enqueue_planned h.planned ?_, hRemaining⟩
      rw [hw]
      exact List.mem_map.mpr ⟨(a.workerId, unit), hPlaced _ List.mem_cons_self, rfl⟩
    · simp only [hSend] at hStep
      cases hStep
      exact ⟨h.locks, h.planned, hRemaining⟩

theorem callerStep_inv (h : BatchInv order placed s) (hStep : s.callerStep = some s') :
    BatchInv order placed s' := by
  cases hPc : s.pc with
  | dispatching assignments unitMap results =>
    cases assignments with
    | nil =>
      simp only [BatchRun.callerStep, hPc] at hStep
      cases hStep
      exact h.finish rfl rfl rfl
    | cons a assignments => exact dispatch_inv h hPc hStep
  | counting assignments unitMap results =>
    simp only [BatchRun.callerStep, hPc] at hStep
    cases hStep
    refine ⟨h.locks, h.planned, ?_⟩
    intro rest restMap hRest
    cases hRest
    exact h.remaining assignments unitMap (by rw [hPc]; rfl)
  | loading results =>
    simp only [BatchRun.callerStep, hPc] at hStep
    split at hStep <;> cases hStep <;> exact h.finish rfl rfl rfl
  | receiving results pending completions =>
    simp only [BatchRun.callerStep, hPc] at hStep
    split at hStep
    · obtain ⟨⟨completion, pool⟩, hReceive, rfl⟩ := Option.map_eq_some_iff.mp hStep
      rw [receiveCompletion] at hReceive
      split at hReceive
      · cases hReceive
      · cases hReceive
        exact h.finish rfl rfl rfl
    · cases hStep
      exact h.finish rfl rfl rfl
  | uncounting results pending completions =>
    simp only [BatchRun.callerStep, hPc] at hStep
    cases hStep
    exact h.finish rfl rfl rfl
  | returned result =>
    simp only [BatchRun.callerStep, hPc] at hStep
    cases hStep

theorem step_inv {act : BatchAct workerCount} (h : BatchInv order placed s)
    (hStep : s.step act = some s') : BatchInv order placed s' := by
  cases act with
  | caller => exact callerStep_inv h hStep
  | work w =>
    obtain ⟨pool, hWork, rfl⟩ := Option.map_eq_some_iff.mp hStep
    exact ⟨workStep_inv h.locks hWork, workStep_planned h.planned hWork, h.remaining⟩

end Invariant

/-! ## Runs that reach an overlap -/

section Overlap

variable (order : AccountOrder)

/-- The workers may run by themselves at any point of the call. -/
theorem reach_of_workers {s : BatchRun workerCount} {pool : AsyncWorkerPool workerCount}
    (h : Reachable workStep s.pool pool) : Reachable BatchRun.step s { s with pool } := by
  have hStep : ∀ (pool : AsyncWorkerPool workerCount) w pool', pool.workStep w = some pool' →
      Reachable BatchRun.step { s with pool } { s with pool := pool' } := by
    intro pool w pool' hWork
    refine Reachable.single (a := .work w) ?_
    rw [BatchRun.step, hWork]
    rfl
  exact h.simulate (fun pool => { s with pool }) hStep

/-- The caller alone sends all units that are placed on a worker of the pool. -/
theorem reach_dispatched (assignments : List WorkerAssignment)
    {unitMap : Map String ExecutionUnitData} {units : Map String SchedulableUnit}
    (hTracks : Tracks order unitMap units) (results : List ExecutionResult)
    {pool : AsyncWorkerPool workerCount} (hLoaded : Loaded pool) :
    ∃ s, Reachable BatchRun.step ⟨.dispatching assignments unitMap results, pool⟩ s ∧
      (∃ results, s.pc = .loading results) ∧ Loaded s.pool ∧ QueuesGrow pool s.pool ∧
      Queued (workPlan (placementFrom assignments units)) s.pool := by
  induction assignments generalizing unitMap units results pool with
  | nil =>
    have hLoading : BatchRun.step ⟨.dispatching [] unitMap results, pool⟩ .caller =
      some ⟨.loading results, pool⟩ := rfl
    exact ⟨_, Reachable.single hLoading, ⟨results, rfl⟩, hLoaded, fun _ _ h => h, Queued.nil _⟩
  | cons a assignments ih =>
    have hLookup := hTracks a.unitId
    unfold placementFrom
    cases hUnit : units.lookup a.unitId with
    | none =>
      rw [hUnit, Option.map_none] at hLookup
      obtain ⟨s, hReach, hEnd⟩ := ih hTracks
        (results ++ [⟨a.unitId, a.workerId, false, some "Work unit not found"⟩]) hLoaded
      refine ⟨s, (Reachable.single (a := .caller) ?_).trans hReach, hEnd⟩
      simp only [BatchRun.step, BatchRun.callerStep, hLookup]
    | some unit =>
      rw [hUnit, Option.map_some] at hLookup
      rcases send_cases pool a.workerId (.ofUnit (workUnit unit)) with
        ⟨v, hv, -, hSend⟩ | ⟨e, hSend⟩
      · -- The unit is sent and counted.
        obtain ⟨s, hReach, hPc, hEnd, hGrow, hQueued⟩ := ih (hTracks.erase a.unitId)
          (results ++ [⟨a.unitId, a.workerId, true, none⟩])
          (countPending_loaded (enqueue_loaded hLoaded v (workUnit unit)))
        have hCount : BatchRun.step ⟨.counting assignments (unitMap.erase a.unitId)
            (results ++ [⟨a.unitId, a.workerId, true, none⟩]),
            pool.enqueue v (.ofUnit (workUnit unit))⟩ .caller =
          some ⟨.dispatching assignments (unitMap.erase a.unitId)
            (results ++ [⟨a.unitId, a.workerId, true, none⟩]),
            (pool.enqueue v (.ofUnit (workUnit unit))).countPending⟩ := rfl
        refine ⟨s, (Reachable.single (a := .caller) ?_).trans
          ((Reachable.single hCount).trans hReach), hPc, hEnd, QueuesGrow.of_enqueue hGrow, ?_⟩
        · simp only [BatchRun.step, BatchRun.callerStep, hLookup, convertToWorkItem_toItem, hSend]
        · rw [← hv]
          exact Queued.cons hQueued hGrow
      · -- There is no such worker.
        obtain ⟨s, hReach, hPc, hEnd, hGrow, hQueued⟩ := ih (hTracks.erase a.unitId)
          (results ++ [⟨a.unitId, a.workerId, false, some e.display⟩]) hLoaded
        refine ⟨s, (Reachable.single (a := .caller) ?_).trans hReach, hPc, hEnd, hGrow,
          Queued.cons_of_ne hQueued ?_⟩
        · simp only [BatchRun.step, BatchRun.callerStep, hLookup, convertToWorkItem_toItem, hSend]
        · intro w hw
          have hSent := hLoaded.send w (.ofUnit (workUnit unit))
          rw [hw, hSend] at hSent
          cases hSent

/-- A bundle, whose work item has no accounts, gets to execute while any unit on another
worker is executing. -/
theorem reach_both {units : List SchedulableUnit} {assignments : List WorkerAssignment}
    {pool : AsyncWorkerPool workerCount} (hIdle : Idle pool) {v w : Fin workerCount} (hvw : v ≠ w)
    {unit unit' : SchedulableUnit} (hUnit : (v.val, unit) ∈ placement units assignments)
    (hUnit' : (w.val, unit') ∈ placement units assignments) (hBundle : unit.isAtomic = true) :
    ∃ s m n, Reachable BatchRun.step ⟨.dispatching assignments
        (collect ((units.map (toItem order)).map fun item => (item.id, item))) [], pool⟩ s ∧
      (s.pool.workers v).phase = .executing (workUnit unit) m ∧
      (s.pool.workers w).phase = .executing (workUnit unit') n := by
  obtain ⟨sent, hSent, -, hLoaded, -, hQueued⟩ :=
    reach_dispatched order assignments (tracks_collect order units) [] hIdle.loaded
  have hItem := hQueued v _ (List.mem_map_of_mem hUnit)
  have hItem' := hQueued w _ (List.mem_map_of_mem hUnit')
  obtain ⟨pool', hReach, hAcquiring, hExecuting, hLocks⟩ := reach_holding hLoaded hvw
    hItem (WorkItem.unit?_ofUnit _) hItem' (WorkItem.unit?_ofUnit _)
  have hFree : Disjoint (workUnit unit).allAccounts pool'.globalLocks := by
    rw [workUnit_allAccounts_of_bundle hBundle]
    exact Finset.disjoint_empty_left _
  have hAcquire := Reachable.single (workStep_of_step
    (AsyncWorker.Step.acquire_of_phase hAcquiring hFree))
  refine ⟨_, AsyncWorker.sleeps (workUnit unit), AsyncWorker.sleeps (workUnit unit'),
    hSent.trans (reach_of_workers (hReach.trans hAcquire)), ?_, ?_⟩
  · simp only [Function.update_self]
  · simp only [Function.update_of_ne (Ne.symm hvw), hExecuting]

end Overlap

/-! ## Main result -/

/-- The unit that an executing worker was sent for. -/
theorem exists_placed {order : AccountOrder} {placed : Plan} {s : BatchRun workerCount}
    (h : BatchInv order placed s) {v : Fin workerCount} {x : SchedulableUnit} {m : ℕ}
    (hPhase : (s.pool.workers v).phase = .executing x m) :
    ∃ unit, (v.val, unit) ∈ placed ∧ x = workUnit unit := by
  have hHandles : Handles (s.pool.workers v) x := Or.inr (by rw [hPhase]; rfl)
  obtain ⟨⟨id, unit⟩, hMem, hEq⟩ := List.mem_map.mp (h.planned v x hHandles)
  obtain ⟨rfl, rfl⟩ := Prod.mk.inj hEq
  exact ⟨unit, hMem, rfl⟩

theorem start_inv (order : AccountOrder) {pool : AsyncWorkerPool workerCount} (hIdle : Idle pool)
    (units : List SchedulableUnit) (assignments : List WorkerAssignment) :
    BatchInv order (placement units assignments)
      ⟨.dispatching assignments (collect ((units.map (toItem order)).map
        fun item => (item.id, item))) [], pool⟩ := by
  refine ⟨hIdle.inv, hIdle.planned _, ?_⟩
  intro rest restMap hRest
  cases hRest
  exact ⟨_, tracks_collect order _, fun _ h => h⟩

/-- Two executing transactions are kept apart by the pool, all other pairs by their
placement. -/
theorem BatchInv.noOverlap {order : AccountOrder} {units : List SchedulableUnit}
    {assignments : List WorkerAssignment} {s : BatchRun workerCount}
    (h : BatchInv order (placement units assignments) s)
    (hApart : BundlesApart workerCount (placement units assignments)) : NoOverlap units s := by
  intro v w hvw x m y n hv hw unit unit' hOwner hOwner'
  obtain ⟨placed, hPlaced, rfl⟩ := exists_placed h hv
  obtain ⟨placed', hPlaced', rfl⟩ := exists_placed h hw
  rw [workUnit_unitId, owner_of_mem_placement hPlaced] at hOwner
  rw [workUnit_unitId, owner_of_mem_placement hPlaced'] at hOwner'
  cases hOwner
  cases hOwner'
  cases hKind : unit.isAtomic with
  | true => exact hApart v w hvw unit unit' hPlaced hPlaced' hKind
  | false =>
    cases hKind' : unit'.isAtomic with
    | true => exact (hApart w v hvw.symm unit' unit hPlaced' hPlaced hKind').symm
    | false =>
      have hLocked := h.locks.family_disjoint hvw
      rw [held, held, hv, hw] at hLocked
      rw [← workUnit_allAccounts_of_transaction hKind,
        ← workUnit_allAccounts_of_transaction hKind']
      exact hLocked

/-- Whatever the assignments: executing workers overlap in some interleaving exactly
when a bundle shares an account with a unit that is placed on another worker. -/
theorem noOverlap_iff (heap : PrioGraphScheduler.BinaryHeap) (order : AccountOrder)
    (scheduler : AdaptiveScheduler workerCount) {pool : AsyncWorkerPool workerCount}
    (hIdle : Idle pool) (transactions : List Transaction) (bundles : List Bundle)
    {assignments : List WorkerAssignment}
    (hSchedule : (SchedulerEngine.schedule heap scheduler
      (batchItems order transactions bundles)).2 = .ok assignments) :
    ∃ start, processBatch heap order scheduler pool transactions bundles = .ok start ∧
      ((∀ s, Reachable BatchRun.step start s → NoOverlap (submitted transactions bundles) s) ↔
        BundlesApart workerCount (placement (submitted transactions bundles) assignments)) := by
  refine ⟨⟨.dispatching assignments (collect ((batchItems order transactions bundles).map
    fun item => (item.id, item))) [], pool⟩, ?_, ?_, ?_⟩
  · rw [processBatch, hSchedule]
    rfl
  · intro hAll v w hvw unit unit' hUnit hUnit' hBundle
    obtain ⟨s, m, n, hReach, hv, hw⟩ := reach_both order hIdle hvw hUnit hUnit' hBundle
    refine hAll s hReach v w hvw _ m _ n hv hw unit unit' ?_ ?_
    · rw [workUnit_unitId]
      exact owner_of_mem_placement hUnit
    · rw [workUnit_unitId]
      exact owner_of_mem_placement hUnit'
  · intro hApart s hReach
    have hStart := start_inv order hIdle (submitted transactions bundles) assignments
    have hInv := hReach.invariant (fun _ _ _ h hStep => step_inv h hStep) hStart
    exact hInv.noOverlap hApart

/-- A transaction that writes account 1. -/
def account1Tx : Transaction := Transaction.new "tx" [AccountMeta.new (Pubkey.filled 1) true] 1 1

/-- A bundle of that transaction. -/
def account1Bundle : Bundle := Bundle.new 7 [account1Tx] 1 ""

/-- On two workers the priority graph, which sees no accounts of the bundle, spreads the
two units. -/
theorem schedule_account1 :
    (SchedulerEngine.schedule (fun _ => Foundation.PriorityQueue.MaxHeap.ofList _)
      (AdaptiveScheduler.new 2) (batchItems .listed [account1Tx] [account1Bundle])).2 =
        .ok [SchedulableUnit.assignment (.bundle account1Bundle) 0,
          SchedulableUnit.assignment (.transaction account1Tx) 1] :=
  rfl

theorem placement_account1 :
    placement (submitted [account1Tx] [account1Bundle])
      [SchedulableUnit.assignment (.bundle account1Bundle) 0,
        SchedulableUnit.assignment (.transaction account1Tx) 1] =
      [(0, .bundle account1Bundle), (1, .transaction account1Tx)] :=
  rfl

theorem noOverlap_iff_account1 :
    ∃ start, processBatch (fun _ => Foundation.PriorityQueue.MaxHeap.ofList _) .listed
        (AdaptiveScheduler.new 2) (spawn 2) [account1Tx] [account1Bundle] = .ok start ∧
      ((∀ s, Reachable BatchRun.step start s →
          NoOverlap (submitted [account1Tx] [account1Bundle]) s) ↔
        BundlesApart 2 (placement (submitted [account1Tx] [account1Bundle])
          [SchedulableUnit.assignment (.bundle account1Bundle) 0,
            SchedulableUnit.assignment (.transaction account1Tx) 1])) :=
  noOverlap_iff _ .listed (AdaptiveScheduler.new 2) ⟨fun _ => rfl, rfl⟩ [account1Tx]
    [account1Bundle] schedule_account1

/-- The bundle and the transaction execute at the same time. -/
theorem not_noOverlap :
    ¬ ∀ (heap : PrioGraphScheduler.BinaryHeap) (order : AccountOrder) (workerCount : ℕ)
      (scheduler : AdaptiveScheduler workerCount) (pool : AsyncWorkerPool workerCount), Idle pool →
        ∀ (transactions : List Transaction) (bundles : List Bundle) (start s : BatchRun workerCount),
          processBatch heap order scheduler pool transactions bundles = .ok start →
          Reachable BatchRun.step start s → NoOverlap (submitted transactions bundles) s := by
  intro hAll
  have hIdle : Idle (spawn 2) := ⟨fun _ => rfl, rfl⟩
  have hBundle : ((0 : Fin 2).val, SchedulableUnit.bundle account1Bundle) ∈
      placement (submitted [account1Tx] [account1Bundle]) _ :=
    placement_account1 ▸ List.mem_cons_self
  have hTx : ((1 : Fin 2).val, SchedulableUnit.transaction account1Tx) ∈
      placement (submitted [account1Tx] [account1Bundle]) _ :=
    placement_account1 ▸ List.mem_cons_of_mem _ List.mem_cons_self
  obtain ⟨s, m, n, hReach, hv, hw⟩ := reach_both .listed hIdle (by decide) hBundle hTx rfl
  have hDisjoint := hAll (fun _ => Foundation.PriorityQueue.MaxHeap.ofList _) .listed 2
    (AdaptiveScheduler.new 2) (spawn 2) hIdle [account1Tx] [account1Bundle] _ s rfl hReach
    0 1 (by decide) _ m _ n hv hw (.bundle account1Bundle) (.transaction account1Tx) rfl rfl
  exact Finset.disjoint_left.mp hDisjoint (Finset.mem_singleton_self (Pubkey.filled 1))
    (Finset.mem_singleton_self _)

end Blunder.IntegratedPipeline
