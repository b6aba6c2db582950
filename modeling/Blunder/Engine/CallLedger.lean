import Blunder.Engine.Calls
import Mathlib.Algebra.Order.BigOperators.Group.Finset

/-!
# Whose completions a call receives

The calls on a pipeline do not tell their completions apart: a call receives as many as
it has counted, whatever units they are for. As long as every call receives completions
of its own units only, the counter, the channel and the backlogs split up among the calls
and each call ends with the completions of exactly the units it has sent.

* `CallsInv`, `callsInv_step`: the ledger of all calls.
* `faithful_of_own_receives`: what a call returns then.
-/

namespace Blunder.IntegratedPipeline

open Foundation.HashMap Foundation.Transition AsyncWorkerPool

variable {workerCount callCount : ℕ}

/-! ## The ledger of one call -/

namespace BatchPc

/-- The results of the dispatch, until they are merged. -/
def results? : BatchPc → Option (List ExecutionResult)
  | .dispatching _ _ results => some results
  | .counting _ _ results => some results
  | .loading results => some results
  | .receiving results _ _ => some results
  | .uncounting results _ _ => some results
  | .returned _ => none

def received : BatchPc → List WorkCompletion
  | .receiving _ _ completions => completions
  | .uncounting _ _ completions => completions
  | _ => []

/-- How many completions the call waits for. -/
def target? : BatchPc → Option ℕ
  | .receiving _ pending _ => some pending
  | .uncounting _ pending _ => some pending
  | _ => none

/-- Sends that are not counted yet. -/
def counts : BatchPc → ℕ
  | .counting _ _ _ => 1
  | _ => 0

/-- Completions that are received and not uncounted yet. -/
def owes : BatchPc → ℕ
  | .uncounting _ _ _ => 1
  | _ => 0

/-- Of so many units that a call has sent, those whose completions it has yet to receive. -/
def flying (sent : ℕ) : BatchPc → ℕ
  | .returned _ => 0
  | pc => sent - pc.received.length

end BatchPc

/-- A dispatch result says whether the unit was sent. -/
structure Reports (entry : LogEntry) (result : ExecutionResult) : Prop where
  unitId : result.unitId = entry.1.unitId
  success : result.success = entry.2
  error : entry.2 = true → result.error = none

/-- What a call has returned is its dispatch results merged with the completions of the
units that it has sent. -/
def Settled (log : List LogEntry) (executed : List WorkCompletion)
    (result : Except MevError BatchResult) : Prop :=
  ∃ results completions, result = .ok (batchResult results completions) ∧
    List.Forall₂ Reports log results ∧ completions ⊆ executed ∧
    (completions.map WorkCompletion.unitId).Perm (sentIds log)

/-- What remains to be dispatched continues the log of the batch. -/
structure Remains (workerCount : ℕ) (order : AccountOrder) (units : List SchedulableUnit)
    (log full : List LogEntry) (assignments : List WorkerAssignment)
    (unitMap : Map String ExecutionUnitData) (rest : Map String SchedulableUnit) : Prop where
  tracks : Tracks order unitMap rest
  owned : ∀ id unit, rest.lookup id = some unit → owner units id = some unit
  log : log ++ dispatchLog workerCount assignments rest = full

/-- `full` is the whole log of the batch, `log` the log so far. -/
structure CallInv (workerCount : ℕ) (order : AccountOrder) (units : List SchedulableUnit)
    (full log : List LogEntry) (executed : List WorkCompletion) (pc : BatchPc) : Prop where
  remaining : ∀ assignments unitMap, pc.remaining = some (assignments, unitMap) →
    ∃ rest, Remains workerCount order units log full assignments unitMap rest
  dispatched : pc.remaining = none → log = full
  reports : ∀ results, pc.results? = some results → List.Forall₂ Reports log results
  counted : pc.counts ≤ (sentIds log).length
  own : ∀ k ∈ pc.received, k.unitId ∈ sentIds log
  produced : pc.received ⊆ executed
  target : ∀ pending, pc.target? = some pending → (sentIds log).length ≤ pending
  settled : ∀ result, pc = .returned result → Settled log executed result

/-- The log of a batch. -/
def fullLog (workerCount : ℕ) (units : List SchedulableUnit) (assignments : List WorkerAssignment) :
    List LogEntry :=
  dispatchLog workerCount assignments (collect (units.map fun unit => (unit.unitId, unit)))

theorem mem_units_of_mem_fullLog {units : List SchedulableUnit}
    {assignments : List WorkerAssignment} {id : String}
    (h : id ∈ sentIds (fullLog workerCount units assignments)) :
    ∃ unit ∈ units, unit.unitId = id := by
  obtain ⟨unit, hLookup⟩ := lookup_of_mem_sentIds h
  rw [← owner_eq_lookup] at hLookup
  refine ⟨unit, List.mem_reverse.mp (List.mem_of_find?_eq_some hLookup), ?_⟩
  simpa using List.find?_some hLookup

theorem unitId_of_owner {units : List SchedulableUnit} {id : String} {unit : SchedulableUnit}
    (h : owner units id = some unit) : unit.unitId = id := by
  simpa using List.find?_some h

section CallInv

variable {order : AccountOrder} {units : List SchedulableUnit} {full log : List LogEntry}
  {executed : List WorkCompletion} {pc : BatchPc}

/-- The log so far is part of the log of the batch. -/
theorem CallInv.log_initial (h : CallInv workerCount order units full log executed pc) :
    log <+: full := by
  cases hRemaining : pc.remaining with
  | none => rw [h.dispatched hRemaining]
  | some rest =>
    obtain ⟨units', hRemains⟩ := h.remaining rest.1 rest.2 hRemaining
    exact ⟨_, hRemains.log⟩

theorem CallInv.sublist (h : CallInv workerCount order units full log executed pc) :
    (sentIds log).Sublist (sentIds full) := by
  obtain ⟨more, hMore⟩ := h.log_initial
  rw [← hMore, sentIds_append]
  exact List.sublist_append_left _ _

theorem Settled.mono {executed' : List WorkCompletion} {result : Except MevError BatchResult}
    (h : Settled log executed result) (hMono : executed ⊆ executed') :
    Settled log executed' result := by
  obtain ⟨results, completions, hResult, hReports, hExecuted, hPerm⟩ := h
  exact ⟨results, completions, hResult, hReports, List.Subset.trans hExecuted hMono, hPerm⟩

theorem CallInv.mono {executed' : List WorkCompletion}
    (h : CallInv workerCount order units full log executed pc) (hMono : executed ⊆ executed') :
    CallInv workerCount order units full log executed' pc :=
  ⟨h.remaining, h.dispatched, h.reports, h.counted, h.own,
    List.Subset.trans h.produced hMono, h.target,
    fun result hPc => (h.settled result hPc).mono hMono⟩

/-- A call that is still dispatching. -/
theorem callInv_of_remaining {assignments : List WorkerAssignment}
    {unitMap : Map String ExecutionUnitData} {results : List ExecutionResult}
    (hRemaining : pc.remaining = some (assignments, unitMap)) (hResults : pc.results? = some results)
    (hRemains : ∃ rest, Remains workerCount order units log full assignments unitMap rest)
    (hReports : List.Forall₂ Reports log results) (hCounted : pc.counts ≤ (sentIds log).length) :
    CallInv workerCount order units full log executed pc := by
  have hQuiet : pc.received = [] ∧ pc.target? = none ∧ ∀ result, pc ≠ .returned result := by
    cases pc with
    | dispatching rest unitMap results =>
      refine ⟨rfl, rfl, fun result h => ?_⟩
      cases h
    | counting rest unitMap results =>
      refine ⟨rfl, rfl, fun result h => ?_⟩
      cases h
    | _ => cases hRemaining
  obtain ⟨hReceived, hTarget, hNotReturned⟩ := hQuiet
  refine ⟨?_, ?_, ?_, hCounted, ?_, ?_, ?_, ?_⟩
  · intro assignments' unitMap' h
    rw [hRemaining] at h
    cases h
    exact hRemains
  · intro h
    rw [hRemaining] at h
    cases h
  · intro results' h
    rw [hResults] at h
    cases h
    exact hReports
  · rw [hReceived]
    exact List.forall_mem_nil _
  · rw [hReceived]
    exact List.nil_subset _
  · intro pending h
    rw [hTarget] at h
    cases h
  · intro result h
    exact absurd h (hNotReturned result)

/-- A call that has dispatched its batch. -/
theorem callInv_of_dispatched (hRemaining : pc.remaining = none) (hLog : log = full)
    (hReports : ∀ results, pc.results? = some results → List.Forall₂ Reports log results)
    (hOwn : ∀ k ∈ pc.received, k.unitId ∈ sentIds log) (hProduced : pc.received ⊆ executed)
    (hTarget : ∀ pending, pc.target? = some pending → (sentIds log).length ≤ pending)
    (hSettled : ∀ result, pc = .returned result → Settled log executed result) :
    CallInv workerCount order units full log executed pc := by
  have hCounts : pc.counts = 0 := by
    cases pc with
    | counting rest unitMap results => cases hRemaining
    | _ => rfl
  refine ⟨?_, fun _ => hLog, hReports, ?_, hOwn, hProduced, hTarget, hSettled⟩
  · intro assignments unitMap h
    rw [hRemaining] at h
    cases h
  · rw [hCounts]
    exact Nat.zero_le _

/-- A call that has returned what it has received, a completion for every unit it sent. -/
theorem callInv_of_returned {results : List ExecutionResult} {received : List WorkCompletion}
    (hLog : log = full) (hReports : List.Forall₂ Reports log results)
    (hProduced : received ⊆ executed)
    (hAll : (received.map WorkCompletion.unitId).Perm (sentIds log)) :
    CallInv workerCount order units full log executed
      (.returned (.ok (batchResult results received))) := by
  refine callInv_of_dispatched rfl hLog ?_ (List.forall_mem_nil _) (List.nil_subset _) ?_ ?_
  · intro results' hResults
    cases hResults
  · intro pending hTarget
    cases hTarget
  · intro result hPc
    cases hPc
    exact ⟨results, received, rfl, hReports, hProduced, hAll⟩

/-- The unit that is sent for an assignment. -/
theorem Remains.exists_unit {a : WorkerAssignment} {assignments : List WorkerAssignment}
    {unitMap : Map String ExecutionUnitData} {rest : Map String SchedulableUnit}
    {item : ExecutionUnitData}
    (h : Remains workerCount order units log full assignments unitMap rest)
    (hLookup : unitMap.lookup a.unitId = some item) :
    ∃ unit, rest.lookup a.unitId = some unit ∧ unit.unitId = a.unitId ∧
      convertToWorkItem item = .ok (.ofUnit (workUnit unit)) := by
  have hTracks := h.tracks a.unitId
  rw [hLookup] at hTracks
  obtain ⟨unit, hUnit, rfl⟩ := Option.map_eq_some_iff.mp hTracks.symm
  exact ⟨unit, hUnit, unitId_of_owner (h.owned _ _ hUnit), convertToWorkItem_toItem order unit⟩

/-- The item that a call sends is that of a unit with the id of the assignment. -/
theorem CallInv.exists_sent {a : WorkerAssignment} {assignments : List WorkerAssignment}
    {unitMap : Map String ExecutionUnitData} {results : List ExecutionResult}
    {item : ExecutionUnitData} {work : WorkItem}
    (h : CallInv workerCount order units full log executed
      (.dispatching (a :: assignments) unitMap results))
    (hLookup : unitMap.lookup a.unitId = some item) (hConvert : convertToWorkItem item = .ok work) :
    ∃ unit, unit.unitId = a.unitId ∧ work = .ofUnit (workUnit unit) := by
  obtain ⟨rest, hRest⟩ := h.remaining _ _ rfl
  obtain ⟨unit, -, hId, hWork⟩ := hRest.exists_unit hLookup
  rw [hWork] at hConvert
  cases hConvert
  exact ⟨unit, hId, rfl⟩

/-- Every unit of the map converts. -/
theorem CallInv.convert_ne_error {a : WorkerAssignment} {assignments : List WorkerAssignment}
    {unitMap : Map String ExecutionUnitData} {results : List ExecutionResult}
    {item : ExecutionUnitData} {e : MevError}
    (h : CallInv workerCount order units full log executed
      (.dispatching (a :: assignments) unitMap results))
    (hLookup : unitMap.lookup a.unitId = some item) : convertToWorkItem item ≠ .error e := by
  obtain ⟨rest, hRest⟩ := h.remaining _ _ rfl
  obtain ⟨unit, -, -, hWork⟩ := hRest.exists_unit hLookup
  rw [hWork]
  intro hError
  cases hError

/-- What remains after an assignment for a unit of the map. -/
theorem Remains.erase {a : WorkerAssignment} {assignments : List WorkerAssignment}
    {unitMap : Map String ExecutionUnitData} {rest : Map String SchedulableUnit}
    {unit : SchedulableUnit}
    (h : Remains workerCount order units log full (a :: assignments) unitMap rest)
    (hUnit : rest.lookup a.unitId = some unit) :
    Remains workerCount order units (log ++ [(a, decide (a.workerId < workerCount))]) full
      assignments (unitMap.erase a.unitId) (rest.erase a.unitId) := by
  refine ⟨h.tracks.erase _, ?_, ?_⟩
  · intro id other hOther
    exact h.owned id other (lookup_of_lookup_erase hOther)
  · have hLog := h.log
    rw [dispatchLog, hUnit] at hLog
    rwa [List.append_assoc, List.singleton_append]

/-- What remains after an assignment without a unit. -/
theorem Remains.skip {a : WorkerAssignment} {assignments : List WorkerAssignment}
    {unitMap : Map String ExecutionUnitData} {rest : Map String SchedulableUnit}
    (h : Remains workerCount order units log full (a :: assignments) unitMap rest)
    (hLookup : unitMap.lookup a.unitId = none) :
    Remains workerCount order units (log ++ [(a, false)]) full assignments unitMap rest := by
  refine ⟨h.tracks, h.owned, ?_⟩
  have hTracks := h.tracks a.unitId
  rw [hLookup] at hTracks
  have hUnit : rest.lookup a.unitId = none := Option.map_eq_none_iff.mp hTracks.symm
  have hLog := h.log
  rw [dispatchLog, hUnit] at hLog
  rwa [List.append_assoc, List.singleton_append]

/-- A send to a worker of an open pool succeeds. -/
theorem le_of_send_error {pool : AsyncWorkerPool workerCount} (hOpen : Open pool) {id : ℕ}
    {work : WorkItem} {e : MevError} (h : pool.send id work = .error e) : ¬ id < workerCount := by
  intro hId
  have hStopped := (hOpen ⟨id, hId⟩).stopped
  rw [send, dif_pos hId, if_neg] at h
  · cases h
  · rw [isClosed]
    split
    · contradiction
    · exact Bool.false_ne_true

end CallInv

/-! ## A step of one call -/

/-- What a call relies on when it takes a step. -/
structure Sound (log : List LogEntry) (executed : List WorkCompletion)
    (pool : AsyncWorkerPool workerCount) (pc : BatchPc) : Prop where
  opened : Open pool
  channel : pool.completions ⊆ executed
  fresh : (pc.received.map WorkCompletion.unitId).Nodup
  load : ∀ results, pc = .loading results → (sentIds log).length ≤ pool.pendingWork.toNat
  receive : ∀ results pending received k completions, pc = .receiving results pending received →
    received.length < pending → pool.completions = k :: completions →
      k.unitId ∈ sentIds log ∧ k.unitId ∉ received.map WorkCompletion.unitId

section CallerStep

variable {order : AccountOrder} {units : List SchedulableUnit} {full log : List LogEntry}
  {executed : List WorkCompletion} {pc : BatchPc} {pool : AsyncWorkerPool workerCount}
  {run : BatchRun workerCount}

/-- The completions that a call has received are those of its own units. -/
theorem CallInv.received_subset (h : CallInv workerCount order units full log executed pc) :
    pc.received.map WorkCompletion.unitId ⊆ sentIds log := by
  intro id hId
  obtain ⟨k, hk, rfl⟩ := List.mem_map.mp hId
  exact h.own k hk

/-- A call that has reached its target has received a completion for every unit. -/
theorem received_perm (h : CallInv workerCount order units full log executed pc)
    (hFresh : (pc.received.map WorkCompletion.unitId).Nodup)
    (hLength : (sentIds log).length ≤ pc.received.length) :
    (pc.received.map WorkCompletion.unitId).Perm (sentIds log) := by
  apply (hFresh.subperm h.received_subset).perm_of_length_le
  rwa [List.length_map]

theorem Reports.concat {results : List ExecutionResult} {entry : LogEntry}
    {result : ExecutionResult} (h : List.Forall₂ Reports log results) (hLast : Reports entry result) :
    List.Forall₂ Reports (log ++ [entry]) (results ++ [result]) :=
  List.rel_append h (List.Forall₂.cons hLast List.Forall₂.nil)

/-- The result for an assignment whose unit was not sent. -/
theorem Reports.failed (a : WorkerAssignment) (error : Option String) :
    Reports (a, false) ⟨a.unitId, a.workerId, false, error⟩ := by
  refine ⟨rfl, rfl, ?_⟩
  intro hSent
  cases hSent

section Dispatch

variable {a : WorkerAssignment} {assignments : List WorkerAssignment}
  {unitMap : Map String ExecutionUnitData} {results : List ExecutionResult}
  {item : ExecutionUnitData}

/-- With no assignment left the log of the batch is complete. -/
theorem CallInv.log_eq (h : CallInv workerCount order units full log executed
    (.dispatching [] unitMap results)) : log = full := by
  obtain ⟨rest, hRest⟩ := h.remaining _ _ rfl
  have hLog := hRest.log
  rwa [dispatchLog, List.append_nil] at hLog

theorem CallInv.load_next (h : CallInv workerCount order units full log executed
    (.dispatching [] unitMap results)) :
    CallInv workerCount order units full log executed (.loading results) := by
  refine callInv_of_dispatched rfl h.log_eq h.reports (List.forall_mem_nil _) (List.nil_subset _)
    ?_ ?_
  · intro pending hTarget
    cases hTarget
  · intro result hPc
    cases hPc

theorem CallInv.skip (h : CallInv workerCount order units full log executed
    (.dispatching (a :: assignments) unitMap results)) (hLookup : unitMap.lookup a.unitId = none)
    (error : Option String) :
    CallInv workerCount order units full (log ++ [(a, false)]) executed
      (.dispatching assignments unitMap (results ++ [⟨a.unitId, a.workerId, false, error⟩])) := by
  obtain ⟨rest, hRest⟩ := h.remaining _ _ rfl
  refine callInv_of_remaining rfl rfl ⟨rest, hRest.skip hLookup⟩ ?_ (Nat.zero_le _)
  exact Reports.concat (h.reports _ rfl) (Reports.failed a error)

theorem CallInv.send (h : CallInv workerCount order units full log executed
    (.dispatching (a :: assignments) unitMap results))
    (hLookup : unitMap.lookup a.unitId = some item) (hValid : a.workerId < workerCount) :
    CallInv workerCount order units full (log ++ [(a, true)]) executed
      (.counting assignments (unitMap.erase a.unitId)
        (results ++ [⟨a.unitId, a.workerId, true, none⟩])) := by
  obtain ⟨rest, hRest⟩ := h.remaining _ _ rfl
  obtain ⟨unit, hUnit, -, -⟩ := hRest.exists_unit hLookup
  have hRemains := hRest.erase hUnit
  rw [decide_eq_true hValid] at hRemains
  refine callInv_of_remaining rfl rfl ⟨_, hRemains⟩ ?_ ?_
  · exact Reports.concat (h.reports _ rfl) ⟨rfl, rfl, fun _ => rfl⟩
  · rw [sentIds_append, List.length_append]
    exact Nat.le_add_left _ _

theorem CallInv.refuse (h : CallInv workerCount order units full log executed
    (.dispatching (a :: assignments) unitMap results))
    (hLookup : unitMap.lookup a.unitId = some item) (hInvalid : ¬ a.workerId < workerCount)
    (error : Option String) :
    CallInv workerCount order units full (log ++ [(a, false)]) executed
      (.dispatching assignments (unitMap.erase a.unitId)
        (results ++ [⟨a.unitId, a.workerId, false, error⟩])) := by
  obtain ⟨rest, hRest⟩ := h.remaining _ _ rfl
  obtain ⟨unit, hUnit, -, -⟩ := hRest.exists_unit hLookup
  have hRemains := hRest.erase hUnit
  rw [decide_eq_false hInvalid] at hRemains
  refine callInv_of_remaining rfl rfl ⟨_, hRemains⟩ ?_ (Nat.zero_le _)
  exact Reports.concat (h.reports _ rfl) (Reports.failed a error)

end Dispatch

section Wait

variable {results : List ExecutionResult} {pending : ℕ} {received : List WorkCompletion}

theorem CallInv.load (h : CallInv workerCount order units full log executed (.loading results))
    (hLoad : (sentIds log).length ≤ pending) :
    CallInv workerCount order units full log executed (.receiving results pending []) := by
  refine callInv_of_dispatched rfl (h.dispatched rfl) h.reports (List.forall_mem_nil _)
    (List.nil_subset _) ?_ ?_
  · intro pending' hTarget
    cases hTarget
    exact hLoad
  · intro result hPc
    cases hPc

theorem CallInv.receive {k : WorkCompletion} (h : CallInv workerCount order units full log executed
    (.receiving results pending received)) (hOwn : k.unitId ∈ sentIds log)
    (hExecuted : k ∈ executed) :
    CallInv workerCount order units full log executed
      (.uncounting results pending (received ++ [k])) := by
  refine callInv_of_dispatched rfl (h.dispatched rfl) h.reports ?_ ?_ h.target ?_
  · intro other hOther
    rcases List.mem_append.mp hOther with hOld | hNew
    · exact h.own other hOld
    · rw [List.mem_singleton.mp hNew]
      exact hOwn
  · intro other hOther
    rcases List.mem_append.mp hOther with hOld | hNew
    · exact h.produced hOld
    · rw [List.mem_singleton.mp hNew]
      exact hExecuted
  · intro result hPc
    cases hPc

end Wait

theorem callerStep_callInv (h : CallInv workerCount order units full log executed pc)
    (hSound : Sound log executed pool pc) (hStep : CallerStep ⟨pc, pool⟩ run) :
    CallInv workerCount order units full (log ++ dealtWith pc run.pc) executed run.pc := by
  cases hStep with
  | dispatched =>
    simp only [dealtWith, List.append_nil]
    exact h.load_next
  | notFound hLookup => exact h.skip hLookup _
  | unconverted hLookup hConvert => exact absurd hConvert (h.convert_ne_error hLookup)
  | @sent a assignments unitMap results _ item work w hLookup hConvert hId hClosed =>
    have hValid : a.workerId < workerCount := by
      rw [← hId]
      exact w.isLt
    exact h.send hLookup hValid
  | refused hLookup hConvert hSend =>
    exact h.refuse hLookup (le_of_send_error hSound.opened hSend) _
  | count =>
    simp only [dealtWith, List.append_nil]
    exact callInv_of_remaining rfl rfl (h.remaining _ _ rfl) (h.reports _ rfl) (Nat.zero_le _)
  | @loadZero results _ hPending =>
    have hNone : sentIds log = [] := by
      have hLength := hSound.load results rfl
      rw [hPending] at hLength
      exact List.eq_nil_of_length_eq_zero (Nat.le_zero.mp hLength)
    simp only [dealtWith, List.append_nil]
    refine callInv_of_returned (h.dispatched rfl) (h.reports _ rfl) (List.nil_subset _) ?_
    rw [hNone]
    exact List.Perm.nil
  | @load results _ hPending =>
    simp only [dealtWith, List.append_nil]
    exact h.load (hSound.load results rfl)
  | @receive results pending received k completions _ hLt hChannel =>
    obtain ⟨hOwn, -⟩ := hSound.receive _ _ _ _ _ rfl hLt hChannel
    have hExecuted : k ∈ executed := by
      apply hSound.channel
      rw [hChannel]
      exact List.mem_cons_self
    simp only [dealtWith, List.append_nil]
    exact h.receive hOwn hExecuted
  | @finish results pending received _ hLe =>
    simp only [dealtWith, List.append_nil]
    have hLength := Nat.le_trans (h.target pending rfl) hLe
    exact callInv_of_returned (h.dispatched rfl) (h.reports _ rfl) h.produced
      (received_perm h hSound.fresh hLength)
  | uncount =>
    simp only [dealtWith, List.append_nil]
    refine callInv_of_dispatched rfl (h.dispatched rfl) h.reports h.own h.produced h.target ?_
    intro result hPc
    cases hPc

/-- Calls send units only. -/
theorem callerStep_open (h : CallInv workerCount order units full log executed pc)
    (hSound : Sound log executed pool pc) (hStep : CallerStep ⟨pc, pool⟩ run) : Open run.pool := by
  cases hStep with
  | @sent a assignments unitMap results _ item work w hLookup hConvert hId hClosed =>
    obtain ⟨unit, -, rfl⟩ := h.exists_sent hLookup hConvert
    apply enqueue_open hSound.opened
    intro hShutdown
    have hUnit := WorkItem.unit?_ofUnit (workUnit unit)
    rw [hShutdown] at hUnit
    cases hUnit
  | _ => exact hSound.opened

/-- Sent units are in a backlog. -/
theorem callerStep_backlogCount (h : CallInv workerCount order units full log executed pc)
    (hSound : Sound log executed pool pc) (hStep : CallerStep ⟨pc, pool⟩ run) (id : String) :
    run.pool.backlogCount id + (sentIds log).count id =
      pool.backlogCount id + (sentIds (log ++ dealtWith pc run.pc)).count id := by
  cases hStep with
  | @sent a assignments unitMap results _ item work w hLookup hConvert hId hClosed =>
    obtain ⟨unit, hUnit, rfl⟩ := h.exists_sent hLookup hConvert
    simp only [dealtWith, sentIds_concat_true]
    rw [enqueue_backlogCount (Or.inr (hSound.opened w)), WorkItem.unit?_ofUnit, List.count_append,
      Option.toList_some, List.map_singleton, workUnit_unitId, hUnit]
    omega
  | notFound => simp only [dealtWith, sentIds_concat_false]
  | refused => simp only [dealtWith, sentIds_concat_false]
  | count =>
    simp only [dealtWith, List.append_nil]
    rfl
  | uncount =>
    simp only [dealtWith, List.append_nil]
    rfl
  | receive =>
    simp only [dealtWith, List.append_nil]
    rfl
  | _ => simp only [dealtWith, List.append_nil]

/-- A completion that is received leaves the channel. -/
theorem callerStep_delivered (hStep : CallerStep ⟨pc, pool⟩ run) (id : String) :
    (run.pool.completions.map WorkCompletion.unitId).count id +
        (run.pc.received.map WorkCompletion.unitId).count id ≤
      (pool.completions.map WorkCompletion.unitId).count id +
        (pc.received.map WorkCompletion.unitId).count id := by
  cases hStep with
  | @receive results pending received k completions _ hLt hChannel =>
    simp only [BatchPc.received, hChannel, List.map_cons, List.map_append, List.map_nil,
      List.count_append, List.count_cons, List.count_nil]
    omega
  | uncount => exact Nat.le_refl _
  | _ => exact Nat.add_le_add_left (Nat.zero_le _) _

theorem callerStep_channel (hStep : CallerStep ⟨pc, pool⟩ run) :
    run.pool.completions ⊆ pool.completions := by
  cases hStep with
  | receive hLt hChannel =>
    rw [hChannel]
    exact List.subset_cons_self _ _
  | _ => exact List.Subset.refl _

/-- The units of a call that are in flight. -/
theorem callerStep_flight (h : CallInv workerCount order units full log executed pc)
    (hSound : Sound log executed pool pc) (hStep : CallerStep ⟨pc, pool⟩ run) :
    run.pool.inFlight + pc.flying (sentIds log).length =
      pool.inFlight + run.pc.flying (sentIds (log ++ dealtWith pc run.pc)).length := by
  cases hStep with
  | @sent a assignments unitMap results _ item work w hLookup hConvert hId hClosed =>
    obtain ⟨unit, -, rfl⟩ := h.exists_sent hLookup hConvert
    simp only [dealtWith, sentIds_concat_true, enqueue_inFlight (Or.inr (hSound.opened w)),
      WorkItem.unit?_ofUnit, BatchPc.flying, BatchPc.received, Option.toList_some,
      List.length_append, List.length_singleton, List.length_nil]
    omega
  | notFound => simp only [dealtWith, sentIds_concat_false, BatchPc.flying, BatchPc.received]
  | refused => simp only [dealtWith, sentIds_concat_false, BatchPc.flying, BatchPc.received]
  | unconverted hLookup hConvert => exact absurd hConvert (h.convert_ne_error hLookup)
  | @receive results pending received k completions _ hLt hChannel =>
    obtain ⟨hOwn, hNew⟩ := hSound.receive _ _ _ _ _ rfl hLt hChannel
    have hLength : received.length + 1 ≤ (sentIds log).length := by
      have hFresh : (k.unitId :: received.map WorkCompletion.unitId).Nodup :=
        List.nodup_cons.mpr ⟨hNew, hSound.fresh⟩
      have hSubset : k.unitId :: received.map WorkCompletion.unitId ⊆ sentIds log :=
        List.cons_subset.mpr ⟨hOwn, h.received_subset⟩
      have hLe := (hFresh.subperm hSubset).length_le
      rwa [List.length_cons, List.length_map] at hLe
    simp only [dealtWith, List.append_nil, BatchPc.flying, BatchPc.received, inFlight, hChannel,
      List.length_append, List.length_cons, List.length_nil]
    omega
  | @finish results pending received _ hLe =>
    have hTarget := h.target pending rfl
    simp only [BatchPc.flying, BatchPc.received]
    omega
  | @loadZero results _ hPending =>
    have hLoad := hSound.load results rfl
    rw [hPending, UInt64.toNat_zero] at hLoad
    simp only [BatchPc.flying, BatchPc.received]
    omega
  | dispatched => simp only [dealtWith, List.append_nil, BatchPc.flying, BatchPc.received]
  | load => simp only [dealtWith, List.append_nil, BatchPc.flying, BatchPc.received]
  | count =>
    simp only [dealtWith, List.append_nil, BatchPc.flying, BatchPc.received]
    rfl
  | uncount =>
    simp only [dealtWith, List.append_nil, BatchPc.flying, BatchPc.received]
    rfl

/-- What a step does to the counter. -/
theorem callerStep_law (h : CallInv workerCount order units full log executed pc)
    (hSound : Sound log executed pool pc) (hStep : CallerStep ⟨pc, pool⟩ run)
    (hRoom : pc.counts ≠ 0 → pool.pendingWork.toNat + 1 < UInt64.size)
    (hOwed : pc.owes ≠ 0 → pool.pendingWork ≠ 0) :
    run.pool.pendingWork.toNat + run.pc.counts + (pc.owes + pool.inFlight) =
      pool.pendingWork.toNat + pc.counts + (run.pc.owes + run.pool.inFlight) := by
  cases hStep with
  | @sent a assignments unitMap results _ item work w hLookup hConvert hId hClosed =>
    obtain ⟨unit, -, rfl⟩ := h.exists_sent hLookup hConvert
    have hPending : (pool.enqueue w (.ofUnit (workUnit unit))).pendingWork = pool.pendingWork := rfl
    simp only [hPending, enqueue_inFlight (Or.inr (hSound.opened w)), WorkItem.unit?_ofUnit,
      BatchPc.counts, BatchPc.owes, Option.toList_some, List.length_singleton]
    omega
  | count =>
    have hCount := toNat_countPending pool (hRoom Nat.one_ne_zero)
    have hFlight : pool.countPending.inFlight = pool.inFlight := rfl
    simp only [hCount, hFlight, BatchPc.counts, BatchPc.owes]
  | receive hLt hChannel =>
    simp only [inFlight, hChannel, BatchPc.counts, BatchPc.owes, List.length_cons]
    omega
  | uncount =>
    have hUncount := toNat_uncountPending pool (hOwed Nat.one_ne_zero)
    have hPos := toNat_pendingWork_pos (hOwed Nat.one_ne_zero)
    have hFlight : pool.uncountPending.inFlight = pool.inFlight := rfl
    simp only [hUncount, hFlight, BatchPc.counts, BatchPc.owes]
    omega
  | _ => rfl

/-- Only a send adds to what is in flight. -/
theorem callerStep_inFlight_le (h : CallInv workerCount order units full log executed pc)
    (hSound : Sound log executed pool pc) (hStep : CallerStep ⟨pc, pool⟩ run) :
    run.pool.inFlight ≤ pool.inFlight + run.pc.counts := by
  cases hStep with
  | @sent a assignments unitMap results _ item work w hLookup hConvert hId hClosed =>
    obtain ⟨unit, -, rfl⟩ := h.exists_sent hLookup hConvert
    rw [enqueue_inFlight (Or.inr (hSound.opened w)), WorkItem.unit?_ofUnit]
    exact Nat.le_refl _
  | receive hLt hChannel =>
    simp only [inFlight, hChannel, List.length_cons]
    omega
  | _ => exact Nat.le_refl _

/-- A call that is about to count has just sent. -/
theorem callerStep_counts (hStep : CallerStep ⟨pc, pool⟩ run) (hCounts : run.pc.counts ≠ 0) :
    run.pc.counts = 1 ∧
      ∃ a assignments unitMap results, pc = .dispatching (a :: assignments) unitMap results := by
  cases hStep with
  | sent => exact ⟨rfl, _, _, _, _, rfl⟩
  | _ => exact absurd rfl hCounts

end CallerStep

/-! ## The ledger of all calls -/

/-- Sums over the calls, up to one of them. -/
theorem sum_add_le {n : ℕ} {f g : Fin n → ℕ} (h : ∀ i, f i ≤ g i) (i : Fin n) :
    (∑ j, f j) + g i ≤ (∑ j, g j) + f i := by
  have hRest : ∑ j ∈ Finset.univ.erase i, f j ≤ ∑ j ∈ Finset.univ.erase i, g j :=
    Finset.sum_le_sum fun j _ => h j
  rw [← Finset.add_sum_erase _ f (Finset.mem_univ i), ← Finset.add_sum_erase _ g (Finset.mem_univ i)]
  omega

/-- No two batches have an id in common. -/
def Distinct (units : Fin callCount → List SchedulableUnit) : Prop :=
  ∀ c d, c ≠ d → ∀ unit ∈ units c, ∀ unit' ∈ units d, unit.unitId ≠ unit'.unitId

structure CallsInv (order : AccountOrder) (units : Fin callCount → List SchedulableUnit)
    (assignments : Fin callCount → List WorkerAssignment) (s : Calls workerCount callCount) :
    Prop where
  opened : Open s.pool
  call : ∀ c, CallInv workerCount order (units c) (fullLog workerCount (units c) (assignments c))
    (s.log c) s.executed (s.calls c)
  executed : ∀ id, (s.executed.map WorkCompletion.unitId).count id + s.pool.backlogCount id =
    ∑ c, (sentIds (s.log c)).count id
  delivered : ∀ id, (s.pool.completions.map WorkCompletion.unitId).count id +
      ∑ c, ((s.calls c).received.map WorkCompletion.unitId).count id ≤
    (s.executed.map WorkCompletion.unitId).count id
  channel : s.pool.completions ⊆ s.executed
  flight : s.pool.inFlight = ∑ c, (s.calls c).flying (sentIds (s.log c)).length
  law : s.pool.pendingWork.toNat + ∑ c, (s.calls c).counts =
    s.pool.inFlight + ∑ c, (s.calls c).owes
  room : ∀ c, (s.calls c).counts ≠ 0 → s.pool.inFlight + callCount < UInt64.size

/-- A call receives the completion of a unit that it has not sent. -/
def ReceivesOther (s : Calls workerCount callCount) : Calls.Act workerCount callCount → Prop
  | .call c =>
    match s.calls c, s.pool.completions with
    | .receiving _ pending received, k :: _ =>
      s.receiver = some c ∧ received.length < pending ∧ k.unitId ∉ sentIds (s.log c)
    | _, _ => False
  | .work _ => False

instance (s : Calls workerCount callCount) (act : Calls.Act workerCount callCount) :
    Decidable (ReceivesOther s act) := by
  unfold ReceivesOther
  split
  · split <;> infer_instance
  · infer_instance

section Calls

variable {order : AccountOrder} {units : Fin callCount → List SchedulableUnit}
  {assignments : Fin callCount → List WorkerAssignment} {s s' : Calls workerCount callCount}
  {act : Calls.Act workerCount callCount} {c : Fin callCount}

/-- No unit is sent by two calls. -/
theorem sum_sentIds_le_one (hDistinct : Distinct units) (hs : CallsInv order units assignments s)
    (id : String) : ∑ c, (sentIds (s.log c)).count id ≤ 1 := by
  have hOnce : ∀ c, (sentIds (s.log c)).count id ≤ 1 := by
    intro c
    have hNodup := (nodup_sentIds _ _).sublist (hs.call c).sublist
    exact List.nodup_iff_count_le_one.mp hNodup id
  have hOwner : ∀ c, (sentIds (s.log c)).count id ≠ 0 → ∃ unit ∈ units c, unit.unitId = id := by
    intro c hCount
    have hMem := List.count_pos_iff.mp (Nat.pos_of_ne_zero hCount)
    exact mem_units_of_mem_fullLog ((hs.call c).sublist.mem hMem)
  by_cases hSome : ∃ c, (sentIds (s.log c)).count id ≠ 0
  · obtain ⟨c, hc⟩ := hSome
    rw [Finset.sum_eq_single c]
    · exact hOnce c
    · intro d _ hdc
      by_contra hd
      obtain ⟨unit, hUnit, hId⟩ := hOwner c hc
      obtain ⟨unit', hUnit', hId'⟩ := hOwner d hd
      exact hDistinct d c hdc unit' hUnit' unit hUnit (hId'.trans hId.symm)
    · exact fun hc => absurd (Finset.mem_univ c) hc
  · have hNone : ∀ c, (sentIds (s.log c)).count id = 0 := by
      intro c
      by_contra hc
      exact hSome ⟨c, hc⟩
    rw [Finset.sum_eq_zero fun c _ => hNone c]
    exact Nat.zero_le _

/-- Every unit is executed at most once. -/
theorem CallsInv.nodup_executed (hs : CallsInv order units assignments s)
    (hDistinct : Distinct units) : (s.executed.map WorkCompletion.unitId).Nodup := by
  rw [List.nodup_iff_count_le_one]
  intro id
  have hExecuted := hs.executed id
  have hOnce := sum_sentIds_le_one hDistinct hs id
  omega

/-- The counter covers what a call has sent and counted. -/
theorem CallsInv.flying_le (hs : CallsInv order units assignments s) (c : Fin callCount) :
    (s.calls c).flying (sentIds (s.log c)).length + (s.calls c).owes ≤
      s.pool.pendingWork.toNat + (s.calls c).counts := by
  have hEach : ∀ d, (s.calls d).counts ≤
      (s.calls d).flying (sentIds (s.log d)).length + (s.calls d).owes := by
    intro d
    have hCounted := (hs.call d).counted
    cases hPc : s.calls d with
    | counting rest unitMap results =>
      rw [hPc] at hCounted
      exact hCounted
    | _ => exact Nat.zero_le _
  have hSum := sum_add_le hEach c
  rw [Finset.sum_add_distrib] at hSum
  have hLaw := hs.law
  have hFlight := hs.flight
  omega

theorem CallsInv.count_received_le (hs : CallsInv order units assignments s) (id : String) :
    (s.pool.completions.map WorkCompletion.unitId).count id +
        ((s.calls c).received.map WorkCompletion.unitId).count id ≤
      (s.executed.map WorkCompletion.unitId).count id := by
  have hDelivered := hs.delivered id
  have hSingle : ((s.calls c).received.map WorkCompletion.unitId).count id ≤
      ∑ d, ((s.calls d).received.map WorkCompletion.unitId).count id :=
    Finset.single_le_sum (f := fun d => ((s.calls d).received.map WorkCompletion.unitId).count id)
      (fun d _ => Nat.zero_le _) (Finset.mem_univ c)
  omega

/-- A call that receives completions of its own units only can rely on them. -/
theorem CallsInv.sound (hs : CallsInv order units assignments s) (hDistinct : Distinct units)
    (hOwn : ¬ ReceivesOther s (.call c))
    (hHolds : ∀ results pending received, s.calls c = .receiving results pending received →
      s.receiver = some c) :
    Sound (s.log c) s.executed s.pool (s.calls c) := by
  have hOnce := List.nodup_iff_count_le_one.mp (hs.nodup_executed hDistinct)
  refine ⟨hs.opened, hs.channel, ?_, ?_, ?_⟩
  · rw [List.nodup_iff_count_le_one]
    intro id
    have hReceived := hs.count_received_le (c := c) id
    have hExecuted := hOnce id
    omega
  · intro results hPc
    have hFlying := hs.flying_le c
    rw [hPc] at hFlying
    exact hFlying
  · intro results pending received k completions hPc hLt hChannel
    constructor
    · by_contra hOther
      rw [ReceivesOther, hPc, hChannel] at hOwn
      exact hOwn ⟨hHolds _ _ _ hPc, hLt, hOther⟩
    · intro hAgain
      have hReceived := hs.count_received_le (c := c) k.unitId
      have hExecuted := hOnce k.unitId
      have hAgainPos := List.count_pos_iff.mpr hAgain
      rw [hPc, hChannel, List.map_cons, List.count_cons_self] at hReceived
      simp only [BatchPc.received] at hReceived
      omega

/-- There is room to count a unit that was sent. -/
theorem CallsInv.counting_room (hs : CallsInv order units assignments s)
    (hCounts : (s.calls c).counts ≠ 0) : s.pool.pendingWork.toNat + 1 < UInt64.size := by
  have hLaw := hs.law
  have hRoom := hs.room c hCounts
  have hSingle : (s.calls c).counts ≤ ∑ d, (s.calls d).counts :=
    Finset.single_le_sum (f := fun d => (s.calls d).counts) (fun d _ => Nat.zero_le _)
      (Finset.mem_univ c)
  have hOwing : ∑ d, (s.calls d).owes ≤ callCount := by
    have hEach : ∀ d ∈ Finset.univ, (s.calls d).owes ≤ 1 := by
      intro d _
      cases s.calls d <;> simp [BatchPc.owes]
    have hSum := Finset.sum_le_card_nsmul Finset.univ (fun d => (s.calls d).owes) 1 hEach
    rwa [Finset.card_univ, Fintype.card_fin, smul_eq_mul, Nat.mul_one] at hSum
  omega

/-- A received completion can be uncounted. -/
theorem CallsInv.pendingWork_ne_zero (hs : CallsInv order units assignments s)
    (hOwes : (s.calls c).owes ≠ 0) : s.pool.pendingWork ≠ 0 := by
  have hFlying := hs.flying_le c
  have hCounts : (s.calls c).counts = 0 := by
    cases hPc : s.calls c with
    | counting rest unitMap results =>
      rw [hPc] at hOwes
      exact absurd rfl hOwes
    | _ => rfl
  intro hZero
  rw [hZero, UInt64.toNat_zero] at hFlying
  omega

theorem callsInv_caller {run : BatchRun workerCount} (hs : CallsInv order units assignments s)
    (hSound : Sound (s.log c) s.executed s.pool (s.calls c))
    (hStep : CallerStep ⟨s.calls c, s.pool⟩ run)
    (hRoom : ∀ a rest unitMap results, s.calls c = .dispatching (a :: rest) unitMap results →
      s.pool.inFlight + callCount + 1 < UInt64.size) :
    CallsInv order units assignments (s.after c run) := by
  have hCall := hs.call c
  have hFlight := callerStep_flight hCall hSound hStep
  refine ⟨callerStep_open hCall hSound hStep, ?_, ?_, ?_, ?_, ?_, ?_, ?_⟩
  · intro d
    by_cases hdc : d = c
    · subst hdc
      rw [Calls.after_calls_self, Calls.after_log_self]
      exact callerStep_callInv hCall hSound hStep
    · rw [Calls.after_calls_of_ne hdc, Calls.after_log_of_ne hdc]
      exact hs.call d
  · intro id
    have hExecuted := hs.executed id
    have hBacklog := callerStep_backlogCount hCall hSound hStep id
    have hSum := sum_update (fun log => (sentIds log).count id) s.log c
      (s.log c ++ dealtWith (s.calls c) run.pc)
    simp only [Calls.after]
    omega
  · intro id
    have hDelivered := hs.delivered id
    have hChannel := callerStep_delivered hStep id
    have hSum := sum_update (fun pc => (pc.received.map WorkCompletion.unitId).count id) s.calls c
      run.pc
    simp only [Calls.after]
    omega
  · exact List.Subset.trans (callerStep_channel hStep) hs.channel
  · have hSum := sum_change (fun d => (s.calls d).flying (sentIds (s.log d)).length)
      (fun d => ((s.after c run).calls d).flying (sentIds ((s.after c run).log d)).length) c
      fun d hdc => by rw [Calls.after_calls_of_ne hdc, Calls.after_log_of_ne hdc]
    rw [Calls.after_calls_self, Calls.after_log_self, ← hs.flight] at hSum
    rw [Calls.after_pool]
    omega
  · have hLaw := hs.law
    have hChange := callerStep_law hCall hSound hStep hs.counting_room hs.pendingWork_ne_zero
    have hCounts := sum_update BatchPc.counts s.calls c run.pc
    have hOwes := sum_update BatchPc.owes s.calls c run.pc
    simp only [Calls.after]
    omega
  · intro d hCounts
    rw [Calls.after_pool]
    have hLe := callerStep_inFlight_le hCall hSound hStep
    by_cases hRun : run.pc.counts = 0
    · have hBefore : s.pool.inFlight + callCount < UInt64.size := by
        by_cases hdc : d = c
        · rw [hdc, Calls.after_calls_self] at hCounts
          exact absurd hRun hCounts
        · rw [Calls.after_calls_of_ne hdc] at hCounts
          exact hs.room d hCounts
      omega
    · obtain ⟨hOne, a, rest, unitMap, results, hDispatching⟩ := callerStep_counts hStep hRun
      have hGuard := hRoom a rest unitMap results hDispatching
      omega

theorem callsInv_step (hDistinct : Distinct units) (hs : CallsInv order units assignments s)
    (hOwn : ¬ ReceivesOther s act) (h : s.step act = some s') :
    CallsInv order units assignments s' := by
  cases Calls.step_cases h with
  | @work w pool hWork =>
    have hFlight := workStep_inFlight hWork
    have hPending := workStep_pendingWork hWork
    have hChannel := workStep_completions hWork
    refine ⟨workStep_open hs.opened hWork, ?_, ?_, ?_, ?_, ?_, ?_, ?_⟩
    · intro d
      exact (hs.call d).mono (List.subset_append_left _ _)
    · intro id
      have hExecuted := hs.executed id
      have hBacklog := workStep_backlogCount hWork id
      rw [List.map_append, List.count_append]
      dsimp only
      omega
    · intro id
      have hDelivered := hs.delivered id
      dsimp only
      rw [hChannel, List.map_append, List.count_append, List.map_append, List.count_append]
      omega
    · rw [hChannel]
      exact List.append_subset.mpr ⟨List.Subset.trans hs.channel (List.subset_append_left _ _),
        List.subset_append_right _ _⟩
    · rw [hFlight]
      exact hs.flight
    · rw [hFlight, hPending]
      exact hs.law
    · rw [hFlight]
      exact hs.room
  | lock hPc hReceiver =>
    exact ⟨hs.opened, hs.call, hs.executed, hs.delivered, hs.channel, hs.flight, hs.law, hs.room⟩
  | @caller c run hStep hRoom hHolds =>
    exact callsInv_caller hs (hs.sound hDistinct hOwn hHolds) hStep hRoom

theorem callsInv_start (order : AccountOrder) (workerCount : ℕ)
    (batches : Fin callCount → List Transaction × List Bundle)
    (assignments : Fin callCount → List WorkerAssignment) :
    CallsInv order (fun c => submitted (batches c).1 (batches c).2) assignments
      (Calls.start order (spawn workerCount) batches assignments) := by
  have hFlight := spawn_inFlight workerCount
  refine ⟨spawn_open workerCount, ?_, ?_, ?_, List.nil_subset _, ?_, ?_, ?_⟩
  · intro c
    refine callInv_of_remaining rfl rfl ?_ List.Forall₂.nil (Nat.zero_le _)
    refine ⟨_, tracks_collect order (submitted (batches c).1 (batches c).2), ?_, rfl⟩
    intro id unit hLookup
    rw [owner_eq_lookup, hLookup]
  · intro id
    have hBacklog := backlogCount_eq_zero hFlight id
    simp only [Calls.start, hBacklog]
    exact Finset.sum_const_zero.symm
  · intro id
    exact Nat.le_of_eq ((Nat.zero_add _).trans Finset.sum_const_zero)
  · rw [Calls.start, hFlight]
    exact Finset.sum_const_zero.symm
  · rw [Calls.start, hFlight]
    exact (Nat.zero_add _).trans (Nat.zero_add _).symm
  · intro c hCounts
    exact absurd rfl hCounts

end Calls

/-! ## Main result -/

/-- What a call has returned for the units that it has sent is what their own completions
say. -/
def Faithful (s : Calls workerCount callCount) : Prop :=
  ∀ c result, s.calls c = .returned (.ok result) →
    ∀ r ∈ result.results, r.unitId ∈ sentIds (s.log c) →
      (∃ k ∈ s.executed, k.unitId = r.unitId) ∧
        ∀ k ∈ s.executed, k.unitId = r.unitId → r.success = k.success ∧ r.error = k.error

theorem unitId_mergeCompletion (completions : List WorkCompletion) (r : ExecutionResult) :
    (mergeCompletion completions r).unitId = r.unitId := by
  unfold mergeCompletion
  split <;> rfl

/-- Of completions with different ids each is found by its id. -/
theorem find?_unitId {completions : List WorkCompletion} {k : WorkCompletion} {id : String}
    (hNodup : (completions.map WorkCompletion.unitId).Nodup) (hMem : k ∈ completions)
    (hId : k.unitId = id) :
    (completions.find? fun other => decide (other.unitId = id)) = some k := by
  cases hFind : completions.find? fun other => decide (other.unitId = id) with
  | none =>
    have hNot := List.find?_eq_none.mp hFind k hMem
    simp [hId] at hNot
  | some found =>
    have hFound : found.unitId = id := by simpa using List.find?_some hFind
    rw [List.inj_on_of_nodup_map hNodup (List.mem_of_find?_eq_some hFind) hMem
      (hFound.trans hId.symm)]

/-- A result takes over the completion of its unit. -/
theorem mergeCompletion_eq {completions : List WorkCompletion} {r : ExecutionResult}
    {k : WorkCompletion} (hNodup : (completions.map WorkCompletion.unitId).Nodup)
    (hMem : k ∈ completions) (hId : k.unitId = r.unitId) :
    mergeCompletion completions r = { r with success := k.success, error := k.error } := by
  rw [mergeCompletion, find?_unitId hNodup hMem hId]

/-- In a run in which no call receives the completion of a unit that another call has
sent, what is returned is faithful. -/
theorem faithful_of_own_receives (order : AccountOrder)
    {batches : Fin callCount → List Transaction × List Bundle}
    {assignments : Fin callCount → List WorkerAssignment}
    (hDistinct : Distinct fun c => submitted (batches c).1 (batches c).2)
    {acts : List (Calls.Act workerCount callCount)} {s : Calls workerCount callCount}
    (hRun : run Calls.step (Calls.start order (spawn workerCount) batches assignments) acts = some s)
    (hOwn : Along Calls.step (fun s act => ¬ ReceivesOther s act)
      (Calls.start order (spawn workerCount) batches assignments) acts) :
    Faithful s := by
  have hs : CallsInv order (fun c => submitted (batches c).1 (batches c).2) assignments s :=
    invariant_along (fun _ _ _ hs hOwn h => callsInv_step hDistinct hs hOwn h) hRun hOwn
      (callsInv_start order workerCount batches assignments)
  have hNodup := hs.nodup_executed hDistinct
  intro c result hPc r hr hSent
  obtain ⟨results, completions, hResult, -, hExecuted, hPerm⟩ := (hs.call c).settled _ hPc
  cases hResult
  obtain ⟨r, -, rfl⟩ := List.mem_map.mp hr
  rw [unitId_mergeCompletion] at hSent ⊢
  obtain ⟨own, hMem, hId⟩ := List.mem_map.mp (hPerm.mem_iff.mpr hSent)
  have hCompletions : (completions.map WorkCompletion.unitId).Nodup := by
    rw [hPerm.nodup_iff]
    exact (nodup_sentIds _ _).sublist (hs.call c).sublist
  refine ⟨⟨own, hExecuted hMem, hId⟩, ?_⟩
  intro k hk hkId
  have hSame := List.inj_on_of_nodup_map hNodup hk (hExecuted hMem) (hkId.trans hId.symm)
  rw [hSame, mergeCompletion_eq hCompletions hMem hId]
  exact ⟨rfl, rfl⟩

/-- A transaction that writes account 7. -/
def account7Tx (signature : String) : Transaction :=
  Transaction.new signature [AccountMeta.new (Pubkey.filled 7) true] 1 1

def twoBatches (c : Fin 2) : List Transaction × List Bundle :=
  ([account7Tx (if c.val = 0 then "a" else "b")], [])

/-- A worker for each of two batches of one transaction. -/
def twoAssignments (c : Fin 2) : List WorkerAssignment :=
  [⟨if c.val = 0 then "a" else "b", c, false⟩]

theorem twoBatches_distinct : Distinct fun c => submitted (twoBatches c).1 (twoBatches c).2 := by
  unfold Distinct
  decide

/-- A call loads the counter before the other one sends, and returns. -/
def oneAfterTheOther (first second : Fin 2) : List (Calls.Act 2 2) :=
  [.call first, .call first, .call first, .call first, .call second,
    .work first, .work first, .work first, .work first, .work first,
    .call first, .call first, .call first, .call first]

/-- It returns what the worker says. -/
theorem faithful_of_own_receives_oneAfterTheOther :
    ∃ s, run Calls.step (Calls.start .listed (spawn 2) twoBatches twoAssignments)
        (oneAfterTheOther 0 1) = some s ∧
      s.calls 0 = .returned (.ok ⟨1, 1, 0, [⟨"a", 0, true, none⟩]⟩) ∧ Faithful s := by
  have hOwn : Along Calls.step (fun s act => ¬ ReceivesOther s act)
      (Calls.start .listed (spawn 2) twoBatches twoAssignments) (oneAfterTheOther 0 1) := by decide
  obtain ⟨s, hRun, hPc⟩ : ∃ s, run Calls.step
      (Calls.start .listed (spawn 2) twoBatches twoAssignments) (oneAfterTheOther 0 1) = some s ∧
        s.calls 0 = .returned (.ok ⟨1, 1, 0, [⟨"a", 0, true, none⟩]⟩) :=
    ⟨_, rfl, rfl⟩
  exact ⟨s, hRun, hPc, faithful_of_own_receives .listed twoBatches_distinct hRun hOwn⟩

/-- Both calls send; the second transaction fails as its account is locked. The first
call loads two pending units and receives both completions, the second one loads zero. -/
def bothTaken (first second : Fin 2) : List (Calls.Act 2 2) :=
  [.call first, .call first, .call second, .call second, .work first, .work first,
    .work second, .work second, .work second, .work first, .work first, .work first,
    .call first, .call first, .call first, .call first, .call first, .call first, .call first,
    .call first, .call second, .call second]

/-- The second call returns its failed transaction as successful. -/
theorem not_faithful :
    ¬ ∀ (order : AccountOrder) (workerCount callCount : ℕ)
      (batches : Fin callCount → List Transaction × List Bundle)
      (assignments : Fin callCount → List WorkerAssignment),
      (Distinct fun c => submitted (batches c).1 (batches c).2) →
        ∀ (acts : List (Calls.Act workerCount callCount)) (s : Calls workerCount callCount),
          run Calls.step (Calls.start order (spawn workerCount) batches assignments) acts = some s →
            Faithful s := by
  intro hAll
  obtain ⟨s, hRun, hPc, hLog, hExecuted⟩ : ∃ s, run Calls.step
      (Calls.start .listed (spawn 2) twoBatches twoAssignments) (bothTaken 0 1) = some s ∧
        s.calls 1 = .returned (.ok ⟨1, 1, 0, [⟨"b", 1, true, none⟩]⟩) ∧
        sentIds (s.log 1) = ["b"] ∧
        s.executed = [⟨1, "b", false, some MevError.lockAcquisitionFailed.display⟩,
          ⟨0, "a", true, none⟩] :=
    ⟨_, rfl, rfl, rfl, rfl⟩
  have hFaithful := hAll .listed 2 2 twoBatches twoAssignments twoBatches_distinct (bothTaken 0 1) s
    hRun
  have hMem : (⟨"b", 1, true, none⟩ : ExecutionResult).unitId ∈ sentIds (s.log 1) := by
    rw [hLog]
    exact List.mem_singleton_self _
  obtain ⟨-, hSame⟩ := hFaithful 1 _ hPc _ (List.mem_singleton_self _) hMem
  have hFailed := hSame ⟨1, "b", false, some MevError.lockAcquisitionFailed.display⟩
    (by rw [hExecuted]; exact List.mem_cons_self) rfl
  cases hFailed.1

end Blunder.IntegratedPipeline
