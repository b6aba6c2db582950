import Blunder.Engine.CallLedger
import Blunder.Engine.Routes

/-!
# What a batch result says about execution

A single call on an idle pipeline receives the completions of exactly the units that it
has sent. Its results are one for each assignment and are merged with the completions by
id, so a unit that is assigned twice counts twice.

* `success_of_reports`: a merged result is that of its id, whether or not it was sent.
* `reach_executed_returned`: a unit that is sent succeeds in some interleaving, and the
  call returns after it.
* `truthful_iff`: all interleavings are reported truthfully exactly when every unit that
  is sent is assigned once.
-/

namespace Blunder.IntegratedPipeline

open Foundation.HashMap Foundation.Transition AsyncWorkerPool

variable {workerCount : ℕ}

/-! ## Merged results -/

/-- Whether the completion for an id is that of a success. -/
def succeeded (completions : List WorkCompletion) (id : String) : Bool :=
  (completions.find? fun k => decide (k.unitId = id)).any fun k => k.success

section Merge

variable {completions : List WorkCompletion} {log : List LogEntry}

theorem succeeded_of_mem (hNodup : (completions.map WorkCompletion.unitId).Nodup)
    {k : WorkCompletion} (hMem : k ∈ completions) : succeeded completions k.unitId = k.success := by
  rw [succeeded, find?_unitId hNodup hMem rfl]
  rfl

theorem mem_of_succeeded {id : String} (h : succeeded completions id = true) :
    id ∈ completions.map WorkCompletion.unitId := by
  unfold succeeded at h
  cases hFind : completions.find? fun k => decide (k.unitId = id) with
  | none =>
    rw [hFind] at h
    cases h
  | some k =>
    have hId : k.unitId = id := by simpa using List.find?_some hFind
    exact List.mem_map.mpr ⟨k, List.mem_of_find?_eq_some hFind, hId⟩

/-- A merged result is that of its id, whether or not its unit was sent. -/
theorem success_of_reports {entry : LogEntry} {r : ExecutionResult} (h : Reports entry r)
    (hSent : entry.2 = true → entry.1.unitId ∈ completions.map WorkCompletion.unitId) :
    (mergeCompletion completions r).success = succeeded completions entry.1.unitId := by
  unfold mergeCompletion succeeded
  rw [h.unitId]
  cases hFind : completions.find? fun k => decide (k.unitId = entry.1.unitId) with
  | some k => rfl
  | none =>
    have hNotSent : entry.2 = false := by
      rw [← Bool.not_eq_true]
      intro hTrue
      obtain ⟨k, hMem, hId⟩ := List.mem_map.mp (hSent hTrue)
      have hNot := List.find?_eq_none.mp hFind k hMem
      simp [hId] at hNot
    exact h.success.trans hNotSent

/-- The merged results, one for each entry of the log. -/
theorem forall₂_success {results : List ExecutionResult} (h : List.Forall₂ Reports log results)
    (hSent : ∀ id ∈ sentIds log, id ∈ completions.map WorkCompletion.unitId) :
    List.Forall₂ (fun entry r => r.success = succeeded completions entry.1.unitId) log
      (results.map (mergeCompletion completions)) := by
  rw [List.forall₂_map_right_iff]
  induction h with
  | nil => exact List.Forall₂.nil
  | @cons entry r log results hHead hTail ih =>
    refine List.Forall₂.cons (success_of_reports hHead ?_) (ih ?_)
    · intro hTrue
      apply hSent
      exact List.mem_map_of_mem (List.mem_filter.mpr ⟨List.mem_cons_self, hTrue⟩)
    · intro id hId
      apply hSent
      have hTail : (sentIds log).Sublist (sentIds (entry :: log)) := by
        refine List.Sublist.map _ (List.Sublist.filter _ ?_)
        exact List.sublist_cons_self _ _
      exact hTail.mem hId

/-- What two relations say about an entry of the log. -/
theorem exists_of_forall₂ {R S : LogEntry → ExecutionResult → Prop}
    {results : List ExecutionResult} (hR : List.Forall₂ R log results)
    (hS : List.Forall₂ S log results) {entry : LogEntry} (hEntry : entry ∈ log) :
    ∃ r, R entry r ∧ S entry r := by
  induction hR with
  | nil => cases hEntry
  | cons hHead _ ih =>
    cases hS with
    | cons hHead' hTail =>
      rcases List.mem_cons.mp hEntry with rfl | hMem
      · exact ⟨_, hHead, hHead'⟩
      · exact ih hTail hMem

/-- The successes among the merged results. -/
theorem countP_results {results : List ExecutionResult}
    (h : List.Forall₂ (fun entry r => r.success = succeeded completions entry.1.unitId) log results) :
    results.countP (fun r => r.success) =
      log.countP fun entry => succeeded completions entry.1.unitId := by
  induction h with
  | nil => rfl
  | cons hHead _ ih => rw [List.countP_cons, List.countP_cons, ih, hHead]

/-- The successes among the completions are those of the entries that were sent. -/
theorem countP_completions (hPerm : (completions.map WorkCompletion.unitId).Perm (sentIds log))
    (hNodup : (completions.map WorkCompletion.unitId).Nodup) :
    completions.countP (fun k => k.success) =
      log.countP fun entry => succeeded completions entry.1.unitId && entry.2 := by
  calc completions.countP (fun k => k.success)
      = completions.countP fun k => succeeded completions k.unitId := by
        apply List.countP_congr
        intro k hk
        rw [succeeded_of_mem hNodup hk]
    _ = (completions.map WorkCompletion.unitId).countP (succeeded completions) := by
        rw [List.countP_map]
        rfl
    _ = (sentIds log).countP (succeeded completions) := hPerm.countP_eq _
    _ = log.countP fun entry => succeeded completions entry.1.unitId && entry.2 := by
        rw [sentIds, List.countP_map, List.countP_filter]
        rfl

end Merge

/-! ## What is sent -/

/-- Every unit that is sent to a worker of the pool is assigned once. -/
def SentOnce (workerCount : ℕ) (units : List SchedulableUnit) (assignments : List WorkerAssignment) :
    Prop :=
  ∀ entry ∈ placement units assignments, entry.1 < workerCount →
    (assignments.map WorkerAssignment.unitId).count entry.2.unitId = 1

section Sent

variable {units : List SchedulableUnit} {assignments : List WorkerAssignment}

theorem map_fst_dispatchLog (assignments : List WorkerAssignment)
    (units : Map String SchedulableUnit) :
    (dispatchLog workerCount assignments units).map Prod.fst = assignments := by
  induction assignments generalizing units with
  | nil => rfl
  | cons a assignments ih =>
    rw [dispatchLog]
    split <;> rw [List.map_cons, ih]

theorem length_dispatchLog (assignments : List WorkerAssignment)
    (units : Map String SchedulableUnit) :
    (dispatchLog workerCount assignments units).length = assignments.length := by
  rw [← List.length_map (f := Prod.fst), map_fst_dispatchLog]

/-- The sent units are the placed ones with a worker in the pool. -/
theorem mem_sentIds_dispatchLog {id : String} {rest : Map String SchedulableUnit}
    (hOwned : ∀ id unit, rest.lookup id = some unit → owner units id = some unit) :
    id ∈ sentIds (dispatchLog workerCount assignments rest) ↔
      ∃ entry ∈ placementFrom assignments rest, entry.1 < workerCount ∧ entry.2.unitId = id := by
  induction assignments generalizing rest with
  | nil => simp [dispatchLog, sentIds, placementFrom]
  | cons a assignments ih =>
    rw [dispatchLog, placementFrom]
    cases hLookup : rest.lookup a.unitId with
    | none => exact ih hOwned
    | some unit =>
      have hUnit := unitId_of_owner (hOwned _ _ hLookup)
      have hErased : ∀ id unit, (rest.erase a.unitId).lookup id = some unit →
          owner units id = some unit := by
        intro id unit hErase
        exact hOwned id unit (lookup_of_lookup_erase hErase)
      have hRest := ih hErased
      by_cases hId : a.workerId < workerCount
      · rw [decide_eq_true hId, sentIds_cons_true, List.mem_cons, hRest]
        simp only [List.mem_cons, exists_eq_or_imp, hId, true_and, hUnit]
        rw [eq_comm (a := id)]
      · rw [decide_eq_false hId, sentIds_cons_false, hRest]
        simp only [List.mem_cons, exists_eq_or_imp, hId, false_and, false_or]

theorem mem_sentIds_fullLog {id : String} :
    id ∈ sentIds (fullLog workerCount units assignments) ↔
      ∃ entry ∈ placement units assignments, entry.1 < workerCount ∧ entry.2.unitId = id := by
  have hOwned : ∀ id unit, (collect (units.map fun unit => (unit.unitId, unit))).lookup id =
      some unit → owner units id = some unit := by
    intro id unit hLookup
    rw [owner_eq_lookup, hLookup]
  exact mem_sentIds_dispatchLog hOwned

/-- How often an id is assigned: when it is sent, and without being sent. -/
theorem count_unitId (log : List LogEntry) (id : String) :
    ((log.map Prod.fst).map WorkerAssignment.unitId).count id =
      (sentIds log).count id + log.countP fun entry => decide (entry.1.unitId = id) && !entry.2 := by
  induction log with
  | nil => rfl
  | cons entry log ih =>
    obtain ⟨a, sent⟩ := entry
    rw [List.map_cons, List.map_cons, List.count_cons, ih, List.countP_cons]
    cases sent with
    | true =>
      rw [sentIds_cons_true, List.count_cons]
      simp only [Bool.not_true, Bool.and_false, Bool.false_eq_true, if_false]
      omega
    | false =>
      rw [sentIds_cons_false]
      simp [Nat.add_assoc]

/-- Assignments of known units to workers of the pool: the first one for an id sends it. -/
theorem mem_sentIds_of_known {id : String} {rest : Map String SchedulableUnit}
    (hWorkers : ∀ a ∈ assignments, a.workerId < workerCount)
    (hKnown : rest.lookup id ≠ none) (hId : id ∈ assignments.map WorkerAssignment.unitId) :
    id ∈ sentIds (dispatchLog workerCount assignments rest) := by
  induction assignments generalizing rest with
  | nil => cases hId
  | cons a assignments ih =>
    have hRest : ∀ b ∈ assignments, b.workerId < workerCount :=
      fun b hb => hWorkers b (List.mem_cons_of_mem _ hb)
    rw [dispatchLog]
    by_cases hHead : id = a.unitId
    · subst hHead
      obtain ⟨unit, hUnit⟩ := Option.ne_none_iff_exists'.mp hKnown
      rw [hUnit, decide_eq_true (hWorkers a List.mem_cons_self), sentIds_cons_true]
      exact List.mem_cons_self
    · have hLater : id ∈ assignments.map WorkerAssignment.unitId :=
        (List.mem_cons.mp hId).resolve_left hHead
      cases hLookup : rest.lookup a.unitId with
      | none => exact ih hRest hKnown hLater
      | some unit =>
        rw [decide_eq_true (hWorkers a List.mem_cons_self), sentIds_cons_true]
        apply List.mem_cons_of_mem
        apply ih hRest _ hLater
        rwa [Finmap.lookup_erase_ne hHead]

/-- For such assignments to send every unit once is to name every unit once. -/
theorem sentOnce_iff_nodup_assignments (hWorkers : ∀ a ∈ assignments, a.workerId < workerCount)
    (hKnown : ∀ a ∈ assignments, ∃ unit ∈ units, unit.unitId = a.unitId) :
    SentOnce workerCount units assignments ↔ (assignments.map WorkerAssignment.unitId).Nodup := by
  constructor
  · intro hOnce
    rw [List.nodup_iff_count_le_one]
    intro id
    by_cases hId : id ∈ assignments.map WorkerAssignment.unitId
    · obtain ⟨a, ha, rfl⟩ := List.mem_map.mp hId
      obtain ⟨unit, hUnit, hSame⟩ := hKnown a ha
      have hLookup : (collect (units.map fun unit => (unit.unitId, unit))).lookup a.unitId ≠
          none := by
        rw [← owner_eq_lookup, owner, Ne, List.find?_eq_none]
        intro hNone
        exact hNone unit (List.mem_reverse.mpr hUnit) (decide_eq_true hSame)
      have hSent : a.unitId ∈ sentIds (fullLog workerCount units assignments) :=
        mem_sentIds_of_known hWorkers hLookup hId
      obtain ⟨entry, hPlaced, hWorker, hEntry⟩ := mem_sentIds_fullLog.mp hSent
      rw [← hEntry, hOnce entry hPlaced hWorker]
    · rw [List.count_eq_zero_of_not_mem hId]
      exact Nat.zero_le _
  · intro hNodup entry hPlaced hWorker
    have hSent : entry.2.unitId ∈ sentIds (fullLog workerCount units assignments) :=
      mem_sentIds_fullLog.mpr ⟨entry, hPlaced, hWorker, rfl⟩
    have hCount := count_unitId (fullLog workerCount units assignments) entry.2.unitId
    have hPos := List.count_pos_iff.mpr hSent
    have hLe := List.nodup_iff_count_le_one.mp hNodup entry.2.unitId
    unfold fullLog at hCount hPos
    rw [map_fst_dispatchLog] at hCount
    omega

/-- On a batch of at most 2000 units the internal scheduler names every unit once when
the ids of the batch are different. -/
theorem sentOnce_iff_nodup (heap : PrioGraphScheduler.BinaryHeap) (order : AccountOrder)
    {scheduler : AdaptiveScheduler workerCount} (hCount : 0 < workerCount)
    (hThreshold : scheduler.loadMonitor.highThreshold = 2000) {transactions : List Transaction}
    {bundles : List Bundle} (hLe : (submitted transactions bundles).length ≤ 2000)
    (hSchedule : (SchedulerEngine.schedule heap scheduler
      (batchItems order transactions bundles)).2 = .ok assignments) :
    SentOnce workerCount (submitted transactions bundles) assignments ↔
      ((submitted transactions bundles).map SchedulableUnit.unitId).Nodup := by
  have hUnits : batchUnits (bundles.map fun b => SchedulerEngine.defaultBundle b.id b.tip)
      (transactions.map fun tx => SchedulerEngine.defaultTransaction tx.signature
        (tx.accounts.map fun account => account.pubkey.toBytes)) =
          (batchUnits bundles transactions).map workUnit := by
    simp only [batchUnits, List.map_append, List.map_map]
    rfl
  have hIds : ((batchUnits bundles transactions).map workUnit).map SchedulableUnit.unitId =
      (batchUnits bundles transactions).map SchedulableUnit.unitId := by
    rw [List.map_map]
    exact List.map_congr_left fun unit _ => workUnit_unitId unit
  have hOrder : (batchUnits bundles transactions).Perm (submitted transactions bundles) :=
    List.perm_append_comm
  have hSmall : ((batchUnits bundles transactions).map workUnit).length ≤ 2000 := by
    rw [List.length_map, hOrder.length_eq]
    exact hLe
  rw [SchedulerEngine.schedule, convertExecutionUnits_batchItems] at hSchedule
  dsimp only at hSchedule
  rw [AdaptiveScheduler.schedule_of_le hThreshold (hUnits ▸ hSmall)] at hSchedule
  obtain ⟨found, hFound, hAssigns⟩ := PrioGraphScheduler.schedule_spec heap hCount
    (bundles.map fun b => SchedulerEngine.defaultBundle b.id b.tip)
    (transactions.map fun tx => SchedulerEngine.defaultTransaction tx.signature
      (tx.accounts.map fun account => account.pubkey.toBytes))
  rw [hFound] at hSchedule
  cases hSchedule
  rw [hUnits] at hAssigns
  have hPerm : (assignments.map WorkerAssignment.unitId).Perm
      ((submitted transactions bundles).map SchedulableUnit.unitId) := by
    have hAssigned := hAssigns.unitId_perm
    rw [hIds] at hAssigned
    exact hAssigned.trans (hOrder.map _)
  have hKnown : ∀ a ∈ assignments, ∃ unit ∈ submitted transactions bundles,
      unit.unitId = a.unitId := by
    intro a ha
    exact List.mem_map.mp (hPerm.mem_iff.mp (List.mem_map_of_mem ha))
  rw [sentOnce_iff_nodup_assignments hAssigns.workerId_lt hKnown]
  exact hPerm.nodup_iff

end Sent

/-! ## A single call -/

/-- The results that report a success are as many as the units that were executed
successfully, and none is for an assignment that nothing was sent for. -/
structure Truthful (s : Calls workerCount 1) (result : BatchResult) : Prop where
  successes : result.results.countP (fun r => r.success) = s.executed.countP fun k => k.success
  unsent : List.Forall₂ (fun entry r => entry.2 = false → r.success = false) (s.log 0) result.results

section Single

variable {order : AccountOrder} {units : Fin 1 → List SchedulableUnit}
  {assignments : Fin 1 → List WorkerAssignment} {s s' : Calls workerCount 1}
  {act : Calls.Act workerCount 1}

theorem distinct_single (units : Fin 1 → List SchedulableUnit) : Distinct units := by
  intro c d hcd
  exact absurd (Subsingleton.elim c d) hcd

/-- All completions are for units of the only call. -/
theorem not_receivesOther (hs : CallsInv order units assignments s) : ¬ ReceivesOther s act := by
  unfold ReceivesOther
  split
  · rename_i c
    split
    · rename_i results pending received k completions hPc hChannel
      rintro ⟨-, -, hOther⟩
      obtain rfl := Subsingleton.elim c 0
      have hReceived := hs.count_received_le (c := 0) k.unitId
      have hExecuted := hs.executed k.unitId
      rw [Fin.sum_univ_one, List.count_eq_zero_of_not_mem hOther] at hExecuted
      rw [hChannel, List.map_cons, List.count_cons_self] at hReceived
      omega
    · exact not_false
  · exact not_false

theorem single_step (hs : CallsInv order units assignments s) (h : s.step act = some s') :
    CallsInv order units assignments s' :=
  callsInv_step (distinct_single units) hs (not_receivesOther hs) h

/-- A call that has returned has received everything that was executed, and its results
are those of their ids. -/
theorem settled_single {result : BatchResult} (hs : CallsInv order units assignments s)
    (hPc : s.calls 0 = .returned (.ok result)) :
    ∃ completions, s.executed.Perm completions ∧
      (completions.map WorkCompletion.unitId).Nodup ∧
      (completions.map WorkCompletion.unitId).Perm (sentIds (s.log 0)) ∧
      List.Forall₂ (fun entry r => r.success = succeeded completions entry.1.unitId) (s.log 0)
        result.results := by
  obtain ⟨results, completions, hResult, hReports, hExecuted, hPerm⟩ := (hs.call 0).settled _ hPc
  cases hResult
  have hNodup := hs.nodup_executed (distinct_single units)
  have hFlight : s.pool.inFlight = 0 := by
    rw [hs.flight, Fin.sum_univ_one, hPc]
    rfl
  have hIds : (s.executed.map WorkCompletion.unitId).Perm (sentIds (s.log 0)) := by
    rw [List.perm_iff_count]
    intro id
    have hCount := hs.executed id
    rwa [backlogCount_eq_zero hFlight, Fin.sum_univ_one] at hCount
  have hUnique : (completions.map WorkCompletion.unitId).Nodup := by
    rw [hPerm.nodup_iff, ← hIds.nodup_iff]
    exact hNodup
  have hLength : s.executed.length ≤ completions.length := by
    have hSame := (hIds.trans hPerm.symm).length_eq
    rw [List.length_map, List.length_map] at hSame
    exact Nat.le_of_eq hSame
  have hAll : completions.Perm s.executed :=
    ((hUnique.of_map _).subperm hExecuted).perm_of_length_le hLength
  exact ⟨completions, hAll.symm, hUnique, hPerm,
    forall₂_success hReports fun id hId => hPerm.mem_iff.mpr hId⟩

/-- A call whose sent units are assigned once has a truthful result. -/
theorem truthful_of_sentOnce {result : BatchResult} (hs : CallsInv order units assignments s)
    (hOnce : SentOnce workerCount (units 0) (assignments 0))
    (hPc : s.calls 0 = .returned (.ok result)) : Truthful s result := by
  obtain ⟨completions, hAll, hUnique, hPerm, hResults⟩ := settled_single hs hPc
  have hLog : s.log 0 = fullLog workerCount (units 0) (assignments 0) := by
    apply (hs.call 0).dispatched
    rw [hPc]
    rfl
  have hUnsent : ∀ entry ∈ s.log 0, entry.2 = false →
      succeeded completions entry.1.unitId = false := by
    intro entry hEntry hNot
    rw [← Bool.not_eq_true]
    intro hSucceeded
    have hSent := hPerm.mem_iff.mp (mem_of_succeeded hSucceeded)
    have hCount := count_unitId (s.log 0) entry.1.unitId
    have hPos := List.count_pos_iff.mpr hSent
    have hEntryPos : 0 < (s.log 0).countP fun other =>
        decide (other.1.unitId = entry.1.unitId) && !other.2 :=
      List.countP_pos_iff.mpr ⟨entry, hEntry, by simp [hNot]⟩
    rw [hLog, mem_sentIds_fullLog] at hSent
    obtain ⟨placed, hPlaced, hWorker, hId⟩ := hSent
    have hOne := hOnce placed hPlaced hWorker
    rw [hId] at hOne
    rw [hLog] at hCount hPos hEntryPos
    unfold fullLog at hCount hPos hEntryPos
    rw [map_fst_dispatchLog] at hCount
    omega
  constructor
  · calc result.results.countP (fun r => r.success)
        = (s.log 0).countP fun entry => succeeded completions entry.1.unitId :=
          countP_results hResults
      _ = (s.log 0).countP fun entry => succeeded completions entry.1.unitId && entry.2 := by
          apply List.countP_congr
          intro entry hEntry
          cases hSent : entry.2 with
          | true => rw [Bool.and_true]
          | false => rw [hUnsent entry hEntry hSent, Bool.and_false]
      _ = completions.countP fun k => k.success := (countP_completions hPerm hUnique).symm
      _ = s.executed.countP fun k => k.success := (hAll.countP_eq _).symm
  · rw [List.forall₂_iff_zip] at hResults ⊢
    refine ⟨hResults.1, ?_⟩
    intro entry r hMem hNot
    rw [hResults.2 hMem]
    exact hUnsent entry (List.of_mem_zip hMem).1 hNot

/-! ## The call returns -/

/-- An upper bound on the steps that a call has left once it has dispatched its units. -/
def BatchPc.effort (holds : Bool) (pending : ℕ) : BatchPc → ℕ
  | .loading _ => 3 * pending + 3
  | .receiving _ target completions =>
    3 * (target - completions.length) + if holds then 1 else 2
  | .uncounting _ target completions => 3 * (target - completions.length) + 3
  | _ => 0

def Calls.effort (s : Calls workerCount 1) (c : Fin 1) : ℕ :=
  s.pool.effort + (s.calls c).effort (decide (s.receiver = some c)) s.pool.pendingWork.toNat

/-- The call has dispatched its units and waits for no more than it has sent. -/
structure Waits (s : Calls workerCount 1) : Prop where
  dispatched : (s.calls 0).remaining = none
  target : ∀ pending, (s.calls 0).target? = some pending → pending ≤ (sentIds (s.log 0)).length

theorem callerStep_effort_lt {pc : BatchPc} {pool : AsyncWorkerPool workerCount}
    {run : BatchRun workerCount} (hStep : CallerStep ⟨pc, pool⟩ run) (hWaits : pc.remaining = none)
    (holds holds' : Bool) :
    run.pool.effort + run.pc.effort holds' run.pool.pendingWork.toNat <
      pool.effort + pc.effort holds pool.pendingWork.toNat := by
  have hOne : ∀ holds : Bool, 1 ≤ (if holds then 1 else 2) ∧ (if holds then 1 else 2) ≤ 2 := by
    decide
  have hBefore := hOne holds
  have hAfter := hOne holds'
  cases hStep with
  | loadZero =>
    simp only [BatchPc.effort]
    omega
  | load =>
    simp only [BatchPc.effort, List.length_nil]
    omega
  | receive hLt hChannel =>
    simp only [BatchPc.effort, AsyncWorkerPool.effort, List.length_append, List.length_singleton]
    omega
  | finish =>
    simp only [BatchPc.effort]
    omega
  | uncount =>
    simp only [BatchPc.effort, AsyncWorkerPool.effort, uncountPending]
    omega
  | _ => cases hWaits

theorem effort_lt (hWaits : Waits s) (h : s.step act = some s') : s'.effort 0 < s.effort 0 := by
  cases Calls.step_cases h with
  | @work w pool hWork =>
    have hPending := workStep_pendingWork hWork
    have hLt := workStep_effort_lt hWork
    simp only [Calls.effort, hPending]
    omega
  | @lock c results pending received hPc hReceiver =>
    obtain rfl := Subsingleton.elim c 0
    have hFree : decide (s.receiver = some 0) = false := by rw [hReceiver]; rfl
    simp only [Calls.effort, hPc, hFree, BatchPc.effort, decide_true, if_true, Bool.false_eq_true,
      if_false]
    omega
  | @caller c run hStep hRoom hHolds =>
    obtain rfl := Subsingleton.elim c 0
    have hLt := callerStep_effort_lt hStep hWaits.dispatched (decide (s.receiver = some 0))
      (decide ((s.after 0 run).receiver = some 0))
    rw [Calls.effort, Calls.effort, Calls.after_calls_self, Calls.after_pool]
    exact hLt

theorem callerStep_waits {pc : BatchPc} {pool : AsyncWorkerPool workerCount}
    {run : BatchRun workerCount} {log : List LogEntry} (hStep : CallerStep ⟨pc, pool⟩ run)
    (hWaits : pc.remaining = none)
    (hTarget : ∀ pending, pc.target? = some pending → pending ≤ (sentIds log).length)
    (hLoad : ∀ results, pc = .loading results → pool.pendingWork.toNat ≤ (sentIds log).length) :
    run.pc.remaining = none ∧ ∀ pending, run.pc.target? = some pending →
      pending ≤ (sentIds (log ++ dealtWith pc run.pc)).length := by
  cases hStep with
  | loadZero =>
    refine ⟨rfl, ?_⟩
    intro pending h
    cases h
  | @load results _ hPending =>
    refine ⟨rfl, ?_⟩
    rintro _ ⟨⟩
    simp only [dealtWith, List.append_nil]
    exact hLoad results rfl
  | receive =>
    simp only [dealtWith, List.append_nil]
    exact ⟨rfl, hTarget⟩
  | finish =>
    refine ⟨rfl, ?_⟩
    intro pending h
    cases h
  | uncount =>
    simp only [dealtWith, List.append_nil]
    exact ⟨rfl, hTarget⟩
  | _ => cases hWaits

theorem waits_step (hs : CallsInv order units assignments s) (hWaits : Waits s)
    (h : s.step act = some s') : Waits s' := by
  cases Calls.step_cases h with
  | work => exact ⟨hWaits.dispatched, hWaits.target⟩
  | lock => exact ⟨hWaits.dispatched, hWaits.target⟩
  | @caller c run hStep hRoom hHolds =>
    obtain rfl := Subsingleton.elim c 0
    have hLoad : ∀ results, s.calls 0 = .loading results →
        s.pool.pendingWork.toNat ≤ (sentIds (s.log 0)).length := by
      intro results hPc
      have hLaw := hs.law
      have hFlight := hs.flight
      rw [Fin.sum_univ_one, Fin.sum_univ_one, hPc] at hLaw
      rw [Fin.sum_univ_one, hPc] at hFlight
      simp only [BatchPc.counts, BatchPc.owes, BatchPc.flying] at hLaw hFlight
      omega
    obtain ⟨hDispatched, hTarget⟩ := callerStep_waits hStep hWaits.dispatched hWaits.target hLoad
    constructor
    · rw [Calls.after_calls_self]
      exact hDispatched
    · rw [Calls.after_calls_self, Calls.after_log_self]
      exact hTarget

/-- Nobody else locks the receiver. -/
theorem receiver_eq_none (hHolds : ¬ s.receiver = some 0) : s.receiver = none := by
  cases hReceiver : s.receiver with
  | none => rfl
  | some c =>
    obtain rfl := Subsingleton.elim c 0
    exact absurd hReceiver hHolds

/-- While the call has not returned, itself or a worker has a step. -/
theorem exists_step (hs : CallsInv order units assignments s) (hWaits : Waits s) :
    (∃ result, s.calls 0 = .returned result) ∨ ∃ act s', s.step act = some s' := by
  cases hPc : s.calls 0 with
  | returned result => exact Or.inl ⟨result, rfl⟩
  | dispatching rest unitMap results =>
    have hDispatched := hWaits.dispatched
    rw [hPc] at hDispatched
    cases hDispatched
  | counting rest unitMap results =>
    have hDispatched := hWaits.dispatched
    rw [hPc] at hDispatched
    cases hDispatched
  | loading results =>
    refine Or.inr ⟨.call 0, Option.isSome_iff_exists.mp ?_⟩
    simp only [Calls.step, Calls.callStep, Calls.advance, hPc, BatchRun.callerStep]
    split <;> rfl
  | uncounting results pending received =>
    refine Or.inr ⟨.call 0, Option.isSome_iff_exists.mp ?_⟩
    simp only [Calls.step, Calls.callStep, Calls.advance, hPc, BatchRun.callerStep]
    rfl
  | receiving results pending received =>
    right
    by_cases hHolds : s.receiver = some 0
    · by_cases hLt : received.length < pending
      · cases hChannel : s.pool.completions with
        | cons k completions =>
          refine ⟨.call 0, Option.isSome_iff_exists.mp ?_⟩
          simp only [Calls.step, Calls.callStep, Calls.advance, hPc, if_pos hHolds,
            BatchRun.callerStep, if_pos hLt, receiveCompletion, hChannel]
          rfl
        | nil =>
          have hFlight : s.pool.inFlight ≠ 0 := by
            intro hNone
            have hFlight := hs.flight
            have hTarget := hWaits.target pending (by rw [hPc]; rfl)
            rw [Fin.sum_univ_one, hPc, hNone] at hFlight
            simp only [BatchPc.flying, BatchPc.received] at hFlight
            omega
          obtain ⟨w, pool, hWork⟩ := exists_workStep_of_inFlight hFlight hChannel
          refine ⟨.work w, Option.isSome_iff_exists.mp ?_⟩
          rw [Calls.step, hWork]
          rfl
      · refine ⟨.call 0, Option.isSome_iff_exists.mp ?_⟩
        simp only [Calls.step, Calls.callStep, Calls.advance, hPc, if_pos hHolds,
          BatchRun.callerStep, if_neg hLt]
        rfl
    · have hFree := receiver_eq_none hHolds
      refine ⟨.call 0, Option.isSome_iff_exists.mp ?_⟩
      simp only [Calls.step, Calls.callStep, hPc, if_neg hHolds, if_pos hFree]
      rfl

theorem executed_subset (h : s.step act = some s') : s.executed ⊆ s'.executed := by
  cases Calls.step_cases h with
  | work => exact List.subset_append_left _ _
  | lock => exact List.Subset.refl _
  | caller => exact List.Subset.refl _

/-- A call that has dispatched its units gets to return. -/
theorem reach_returned (hs : CallsInv order units assignments s) (hWaits : Waits s) :
    ∃ t result, Reachable Calls.step s t ∧ CallsInv order units assignments t ∧
      s.executed ⊆ t.executed ∧ t.calls 0 = .returned (.ok result) := by
  have hProgress : ∀ t : Calls workerCount 1,
      (CallsInv order units assignments t ∧ Waits t ∧ s.executed ⊆ t.executed) →
        (∃ result, t.calls 0 = .returned result) ∨ ∃ act t', t.step act = some t' ∧
          (CallsInv order units assignments t' ∧ Waits t' ∧ s.executed ⊆ t'.executed) ∧
          t'.effort 0 < t.effort 0 := by
    rintro t ⟨ht, hWaits, hExecuted⟩
    rcases exists_step ht hWaits with hReturned | ⟨act, t', hStep⟩
    · exact Or.inl hReturned
    · exact Or.inr ⟨act, t', hStep, ⟨single_step ht hStep, waits_step ht hWaits hStep,
        List.Subset.trans hExecuted (executed_subset hStep)⟩, effort_lt hWaits hStep⟩
  obtain ⟨t, hReach, ⟨ht, -, hExecuted⟩, result, hPc⟩ :=
    Reachable.exists_of_progress hProgress ⟨hs, hWaits, List.Subset.refl _⟩
  obtain ⟨results, completions, hResult, -⟩ := (ht.call 0).settled _ hPc
  rw [hResult] at hPc
  exact ⟨t, _, hReach, ht, hExecuted, hPc⟩

/-- There is room for the results of a vector of assignments. -/
theorem room_of_length_lt (hs : CallsInv order units assignments s)
    (hLength : (assignments 0).length < 2 ^ 63) : s.pool.inFlight + 1 + 1 < UInt64.size := by
  have hFlight := hs.flight
  have hFlying : (s.calls 0).flying (sentIds (s.log 0)).length ≤ (sentIds (s.log 0)).length := by
    cases s.calls 0 with
    | returned => exact Nat.zero_le _
    | _ => exact Nat.sub_le _ _
  have hSent : (sentIds (s.log 0)).length ≤ (assignments 0).length :=
    calc (sentIds (s.log 0)).length
        ≤ (sentIds (fullLog workerCount (units 0) (assignments 0))).length :=
          (hs.call 0).sublist.length_le
      _ ≤ (fullLog workerCount (units 0) (assignments 0)).length := by
          rw [sentIds, List.length_map]
          exact List.length_filter_le _ _
      _ = (assignments 0).length := length_dispatchLog _ _
  rw [Fin.sum_univ_one] at hFlight
  have hSize : UInt64.size = 2 ^ 64 := rfl
  omega

/-- A step of the call on its own is a step on the pipeline, after the call has locked
the receiver if it has to. -/
theorem reach_after {run : BatchRun workerCount} (hs : CallsInv order units assignments s)
    (hLength : (assignments 0).length < 2 ^ 63)
    (hStep : (BatchRun.mk (s.calls 0) s.pool).callerStep = some run) :
    ∃ t, Reachable Calls.step s t ∧ t.calls 0 = run.pc ∧ t.pool = run.pool := by
  have hAdvance : s.advance 0 = some (s.after 0 run) := by
    rw [Calls.advance, hStep]
    rfl
  have hRoom := room_of_length_lt hs hLength
  cases hPc : s.calls 0 with
  | dispatching rest unitMap results =>
    refine ⟨s.after 0 run, Reachable.single (a := .call 0) ?_, Calls.after_calls_self, rfl⟩
    cases rest with
    | nil =>
      simp only [Calls.step, Calls.callStep, hPc]
      exact hAdvance
    | cons a rest =>
      simp only [Calls.step, Calls.callStep, hPc]
      rw [if_pos hRoom]
      exact hAdvance
  | receiving results pending received =>
    by_cases hHolds : s.receiver = some 0
    · refine ⟨s.after 0 run, Reachable.single (a := .call 0) ?_, Calls.after_calls_self, rfl⟩
      simp only [Calls.step, Calls.callStep, hPc, if_pos hHolds]
      exact hAdvance
    · have hFree := receiver_eq_none hHolds
      let locked : Calls workerCount 1 := { s with receiver := some 0 }
      have hLock : s.step (.call 0) = some locked := by
        simp only [Calls.step, Calls.callStep, hPc, if_neg hHolds, if_pos hFree]
        rfl
      have hNext : locked.step (.call 0) = some (locked.after 0 run) := by
        have hLocked : locked.advance 0 = some (locked.after 0 run) := by
          rw [Calls.advance, hStep]
          rfl
        simp only [Calls.step, Calls.callStep, locked, hPc, if_true]
        exact hLocked
      exact ⟨locked.after 0 run, (Reachable.single hLock).trans (Reachable.single hNext),
        Calls.after_calls_self, rfl⟩
  | _ =>
    refine ⟨s.after 0 run, Reachable.single (a := .call 0) ?_, Calls.after_calls_self, rfl⟩
    simp only [Calls.step, Calls.callStep, hPc]
    exact hAdvance

/-- The pipeline with a single call does what the call does on its own. -/
theorem reach_calls {b b' : BatchRun workerCount} (hReach : Reachable BatchRun.step b b')
    (hs : CallsInv order units assignments s) (hLength : (assignments 0).length < 2 ^ 63)
    (hPc : s.calls 0 = b.pc) (hPool : s.pool = b.pool) :
    ∃ t, Reachable Calls.step s t ∧ CallsInv order units assignments t ∧
      t.calls 0 = b'.pc ∧ t.pool = b'.pool := by
  refine Reachable.invariant (I := fun b => ∃ t, Reachable Calls.step s t ∧
    CallsInv order units assignments t ∧ t.calls 0 = b.pc ∧ t.pool = b.pool) ?_
    ⟨s, Reachable.refl s, hs, hPc, hPool⟩ hReach
  rintro b act b' ⟨t, hReach, ht, hPc, hPool⟩ hStep
  have hNext : ∃ t', Reachable Calls.step t t' ∧ t'.calls 0 = b'.pc ∧ t'.pool = b'.pool := by
    cases act with
    | work w =>
      obtain ⟨pool, hWork, rfl⟩ := Option.map_eq_some_iff.mp hStep
      refine ⟨{ t with pool, executed := t.executed ++ t.pool.completionOf w },
        Reachable.single (a := .work w) ?_, hPc, rfl⟩
      rw [Calls.step, hPool, hWork]
      rfl
    | caller =>
      apply reach_after ht hLength
      rw [hPc, hPool]
      exact hStep
  obtain ⟨t', hReach', hPc', hPool'⟩ := hNext
  refine ⟨t', hReach.trans hReach', ?_, hPc', hPool'⟩
  exact hReach'.invariant (fun _ _ _ ht h => single_step ht h) ht

end Single

/-! ## Main result -/

section Truth

variable {order : AccountOrder} {transactions : List Transaction} {bundles : List Bundle}
  {assignments : List WorkerAssignment}

/-- One call on an idle pipeline. -/
def singleCall (order : AccountOrder) (pool : AsyncWorkerPool workerCount)
    (transactions : List Transaction) (bundles : List Bundle) (assignments : List WorkerAssignment) :
    Calls workerCount 1 :=
  Calls.start order pool (fun _ => (transactions, bundles)) fun _ => assignments

theorem callsInv_of_reachable {s : Calls workerCount 1}
    (h : Reachable Calls.step
      (singleCall order (spawn workerCount) transactions bundles assignments) s) :
    CallsInv order (fun _ => submitted transactions bundles) (fun _ => assignments) s :=
  h.invariant (fun _ _ _ hs hStep => single_step hs hStep)
    (callsInv_start order workerCount (fun _ => (transactions, bundles)) fun _ => assignments)

/-- A unit that is sent is executed successfully in some interleaving in which the call
returns. -/
theorem reach_executed_returned (order : AccountOrder) (hLength : assignments.length < 2 ^ 63)
    {w : Fin workerCount} {unit : SchedulableUnit}
    (hPlaced : (w.val, unit) ∈ placement (submitted transactions bundles) assignments) :
    ∃ s result, Reachable Calls.step
        (singleCall order (spawn workerCount) transactions bundles assignments) s ∧
      s.calls 0 = .returned (.ok result) ∧ ⟨w, unit.unitId, true, none⟩ ∈ s.executed := by
  have hIdle : Idle (spawn workerCount) := ⟨fun _ => rfl, rfl⟩
  obtain ⟨sent, hSent, ⟨results, hLoading⟩, hLoaded, -, hQueued⟩ := reach_dispatched order assignments
    (tracks_collect order (submitted transactions bundles)) [] hIdle.loaded
  -- the worker gets to the unit while nothing is locked, and executes it
  have hItem := hQueued w _ (List.mem_map_of_mem hPlaced)
  have hWorker : sent.pool.workers w = ⟨(sent.pool.workers w).queue, .receiving⟩ := by
    rw [← hLoaded.phase w]
  obtain ⟨rest, completions, hAcquiring⟩ := reach_acquiring sent.pool w (hLoaded.queue w) hItem
    (WorkItem.unit?_ofUnit _) sent.pool.globalLocks sent.pool.completions
  rw [← hWorker, withWorker_self, hLoaded.locks] at hAcquiring
  have hExecuted := hAcquiring.trans (reach_executed sent.pool w (workUnit unit) rest completions
    (Finset.disjoint_empty_right _))
  obtain ⟨s, hReach, hs, hPc, hPool⟩ := reach_calls (hSent.trans (reach_of_workers hExecuted))
    (callsInv_of_reachable (Reachable.refl _)) hLength rfl rfl
  have hWaits : Waits s := by
    constructor
    · rw [hPc, hLoading]
      rfl
    · rw [hPc, hLoading]
      exact nofun
  have hDone : (⟨w, unit.unitId, true, none⟩ : WorkCompletion) ∈ s.executed := by
    apply hs.channel
    rw [hPool]
    apply List.mem_append_right
    rw [List.mem_singleton, WorkCompletion.of, workUnit_unitId]
  obtain ⟨t, result, hReturn, -, hSubset, hReturned⟩ := reach_returned hs hWaits
  exact ⟨t, result, hReach.trans hReturn, hReturned, hSubset hDone⟩

/-- A pool that is idle, with no completion left and nothing counted, is like a new one. -/
theorem eq_spawn {pool : AsyncWorkerPool workerCount} (hIdle : Idle pool)
    (hChannel : pool.completions = []) (hPending : pool.pendingWork = 0) :
    pool = spawn workerCount := by
  obtain ⟨workers, globalLocks, completions, pendingWork⟩ := pool
  have hWorkers : workers = fun _ => ⟨[], .receiving⟩ := funext hIdle.workers
  have hLocks : globalLocks = ∅ := hIdle.locks
  subst hWorkers hLocks
  cases hChannel
  cases hPending
  rfl

/-- Whatever the assignments: all interleavings have a truthful result exactly when every
unit that is sent to a worker of the pool is assigned once. -/
theorem truthful_iff (order : AccountOrder) {pool : AsyncWorkerPool workerCount} (hIdle : Idle pool)
    (hChannel : pool.completions = []) (hPending : pool.pendingWork = 0)
    (transactions : List Transaction) (bundles : List Bundle)
    {assignments : List WorkerAssignment} (hLength : assignments.length < 2 ^ 63) :
    (∀ s result, Reachable Calls.step (singleCall order pool transactions bundles assignments) s →
        s.calls 0 = .returned (.ok result) → Truthful s result) ↔
      SentOnce workerCount (submitted transactions bundles) assignments := by
  rw [eq_spawn hIdle hChannel hPending]
  constructor
  · rintro hAll ⟨id, unit⟩ hPlaced hId
    obtain ⟨s, result, hReach, hPc, hExecuted⟩ :=
      reach_executed_returned order hLength (w := ⟨id, hId⟩) hPlaced
    have hs := callsInv_of_reachable hReach
    obtain ⟨completions, hSame, hUnique, hPerm, hResults⟩ := settled_single hs hPc
    have hUnsent := (hAll s result hReach hPc).unsent
    have hLog : s.log 0 = fullLog workerCount (submitted transactions bundles) assignments := by
      apply (hs.call 0).dispatched
      rw [hPc]
      rfl
    have hSucceeded : succeeded completions unit.unitId = true :=
      succeeded_of_mem hUnique (hSame.mem_iff.mp hExecuted)
    -- no entry with this id is without a unit
    have hNone : (s.log 0).countP (fun entry => decide (entry.1.unitId = unit.unitId) && !entry.2) =
        0 := by
      rw [List.countP_eq_zero]
      intro entry hEntry hBoth
      rw [Bool.and_eq_true, decide_eq_true_iff, Bool.not_eq_true'] at hBoth
      obtain ⟨r, hSuccess, hNot⟩ := exists_of_forall₂ hResults hUnsent hEntry
      rw [hBoth.1, hSucceeded, hNot hBoth.2] at hSuccess
      cases hSuccess
    have hSent : unit.unitId ∈ sentIds (s.log 0) := by
      rw [hLog, mem_sentIds_fullLog]
      exact ⟨_, hPlaced, hId, rfl⟩
    have hOne : (sentIds (s.log 0)).count unit.unitId = 1 := by
      rw [hLog] at hSent ⊢
      exact List.count_eq_one_of_mem (nodup_sentIds _ _) hSent
    have hCount := count_unitId (s.log 0) unit.unitId
    rw [hNone, hOne, hLog, fullLog, map_fst_dispatchLog] at hCount
    exact hCount
  · intro hOnce s result hReach hPc
    exact truthful_of_sentOnce (callsInv_of_reachable hReach) hOnce hPc

/-- A transaction and a bundle with different ids. -/
theorem truthful_iff_account1 :
    SentOnce 2 (submitted [account1Tx] [account1Bundle])
        [SchedulableUnit.assignment (.bundle account1Bundle) 0,
          SchedulableUnit.assignment (.transaction account1Tx) 1] ∧
      ∀ s result, Reachable Calls.step (singleCall .listed (spawn 2) [account1Tx] [account1Bundle]
          [SchedulableUnit.assignment (.bundle account1Bundle) 0,
            SchedulableUnit.assignment (.transaction account1Tx) 1]) s →
        s.calls 0 = .returned (.ok result) → Truthful s result := by
  have hOnce : SentOnce 2 (submitted [account1Tx] [account1Bundle])
      [SchedulableUnit.assignment (.bundle account1Bundle) 0,
        SchedulableUnit.assignment (.transaction account1Tx) 1] := by
    unfold SentOnce
    rw [placement_account1]
    decide
  exact ⟨hOnce, (truthful_iff .listed ⟨fun _ => rfl, rfl⟩ rfl rfl [account1Tx] [account1Bundle]
    (by decide)).mpr hOnce⟩

/-- Two transactions with one signature. -/
def sameSignature : List Transaction := [Transaction.new "tx" [] 1 1, Transaction.new "tx" [] 1 1]

theorem schedule_sameSignature :
    (SchedulerEngine.schedule (fun _ => Foundation.PriorityQueue.MaxHeap.ofList _)
      (AdaptiveScheduler.new 1) (batchItems .listed sameSignature [])).2 =
        .ok [⟨"tx", 0, false⟩, ⟨"tx", 0, false⟩] :=
  rfl

/-- One of them is sent and executed, both are reported as successful. -/
theorem not_truthful :
    ¬ ∀ (heap : PrioGraphScheduler.BinaryHeap) (order : AccountOrder) (workerCount : ℕ)
      (scheduler : AdaptiveScheduler workerCount) (pool : AsyncWorkerPool workerCount),
      Idle pool → pool.completions = [] → pool.pendingWork = 0 →
        ∀ (transactions : List Transaction) (bundles : List Bundle)
          (assignments : List WorkerAssignment),
          (SchedulerEngine.schedule heap scheduler (batchItems order transactions bundles)).2 =
            .ok assignments →
          ∀ s result,
            Reachable Calls.step (singleCall order pool transactions bundles assignments) s →
              s.calls 0 = .returned (.ok result) → Truthful s result := by
  intro hAll
  obtain ⟨s, hRun, hPc, hExecuted⟩ : ∃ s, run Calls.step
      (singleCall .listed (spawn 1) sameSignature [] [⟨"tx", 0, false⟩, ⟨"tx", 0, false⟩])
      [.call 0, .call 0, .call 0, .call 0, .call 0, .work 0, .work 0, .work 0, .work 0, .work 0,
        .call 0, .call 0, .call 0, .call 0] = some s ∧
      s.calls 0 = .returned (.ok ⟨2, 2, 0, [⟨"tx", 0, true, none⟩, ⟨"tx", 0, true, none⟩]⟩) ∧
      s.executed = [⟨0, "tx", true, none⟩] :=
    ⟨_, rfl, rfl, rfl⟩
  have hTruthful := hAll _ .listed 1 (AdaptiveScheduler.new 1) (spawn 1) ⟨fun _ => rfl, rfl⟩ rfl rfl
    sameSignature [] _ schedule_sameSignature s _ ⟨_, hRun⟩ hPc
  have hCount := hTruthful.successes
  rw [hExecuted] at hCount
  exact absurd hCount (by decide)

end Truth

end Blunder.IntegratedPipeline
