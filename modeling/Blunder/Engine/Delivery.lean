import Blunder.Engine.Backlog
import Blunder.Engine.Pipeline

/-!
# What a batch puts on the queues

While `process_batch` sends the units of a batch, the workers take items from their
queues, so what was sent and what a worker received is recorded along the run (`sentAlong`,
`receivedAlong`). In a batch whose ids are distinct the assignments take every unit out of the
maps, in their order.

* `sentAlong_queue`: a queue grows at its end by what is sent, and loses what its worker
  receives.
* `placementFrom_eq`: the units that the assignments take out of the maps.
* `step_rest`: what was sent and what is still to be sent is always that list.
* `processBatch_delivers`: the whole call, in every run.
-/

namespace Blunder.TpuPipeline

open Foundation Foundation.HashMap Foundation.Transition AsyncWorkerPool

variable {workerCount : ℕ}

/-! ## What is sent along a run -/

/-- What a step of the call sends, and to which worker. -/
def TpuRun.sends (s : TpuRun workerCount) : TpuAct workerCount → Plan
  | .work _ => []
  | .caller =>
    match s.pc with
    | .dispatching (a :: _) maps =>
      match maps.take a with
      | .ok (some unit, _) =>
        match s.pool.send a.workerId (.ofUnit unit) with
        | .ok _ => [(a.workerId, unit)]
        | .error _ => []
      | _ => []
    | _ => []

def sentAlong : TpuRun workerCount → List (TpuAct workerCount) → Plan
  | _, [] => []
  | s, act :: acts =>
    s.sends act ++
      match s.step act with
      | some s' => sentAlong s' acts
      | none => []

/-- The item that a worker's next step takes from its queue. -/
def received : AsyncWorker → List WorkItem
  | ⟨queue, .receiving⟩ => queue.take 1
  | _ => []

/-- What a worker receives by a step. -/
def TpuRun.receives (s : TpuRun workerCount) (w : Fin workerCount) :
    TpuAct workerCount → List WorkItem
  | .work v => if v = w then received (s.pool.workers w) else []
  | .caller => []

def receivedAlong (w : Fin workerCount) :
    TpuRun workerCount → List (TpuAct workerCount) → List WorkItem
  | _, [] => []
  | s, act :: acts =>
    s.receives w act ++
      match s.step act with
      | some s' => receivedAlong w s' acts
      | none => []

/-- The transition rules of the caller, with what is sent. -/
inductive CallerRule : TpuRun workerCount → TpuRun workerCount → Plan → Prop
  | finish {maps pool} : CallerRule ⟨.dispatching [] maps, pool⟩ ⟨.returned (.ok ()), pool⟩ []
  | refuse {a assignments maps pool e} (hTake : maps.take a = .error e) :
    CallerRule ⟨.dispatching (a :: assignments) maps, pool⟩ ⟨.returned (.error e), pool⟩ []
  | skip {a assignments maps maps' pool} (hTake : maps.take a = .ok (none, maps')) :
    CallerRule ⟨.dispatching (a :: assignments) maps, pool⟩
      ⟨.dispatching assignments maps', pool⟩ []
  | send {a assignments maps maps' unit pool} {w : Fin workerCount}
      (hTake : maps.take a = .ok (some unit, maps')) (hWorker : w.val = a.workerId) :
    CallerRule ⟨.dispatching (a :: assignments) maps, pool⟩
      ⟨.counting assignments maps', pool.enqueue w (.ofUnit unit)⟩ [(a.workerId, unit)]
  | fail {a assignments maps maps' unit pool e} (hTake : maps.take a = .ok (some unit, maps'))
      (hSend : pool.send a.workerId (.ofUnit unit) = .error e) :
    CallerRule ⟨.dispatching (a :: assignments) maps, pool⟩ ⟨.returned (.error e), pool⟩ []
  | count {assignments maps pool} :
    CallerRule ⟨.counting assignments maps, pool⟩
      ⟨.dispatching assignments maps, pool.countPending⟩ []

theorem callerRule_of_step {s s' : TpuRun workerCount} (h : s.callerStep = some s') :
    CallerRule s s' (s.sends .caller) := by
  obtain ⟨pc, pool⟩ := s
  cases pc with
  | dispatching assignments maps =>
    cases assignments with
    | nil =>
      cases h
      exact CallerRule.finish
    | cons a assignments =>
      simp only [TpuRun.callerStep] at h
      simp only [TpuRun.sends]
      rcases hTake : maps.take a with e | ⟨_ | unit, maps'⟩
      · simp only [hTake] at h
        cases h
        exact CallerRule.refuse hTake
      · simp only [hTake] at h
        cases h
        exact CallerRule.skip hTake
      · simp only [hTake] at h
        rcases send_cases pool a.workerId (.ofUnit unit) with ⟨w, hw, -, hSend⟩ | ⟨e, hSend⟩
        · simp only [hSend] at h ⊢
          cases h
          exact CallerRule.send hTake hw
        · simp only [hSend] at h ⊢
          cases h
          exact CallerRule.fail hTake hSend
  | counting assignments maps =>
    cases h
    exact CallerRule.count
  | returned result => cases h

/-- The items for one worker. -/
def itemsFor (w : Fin workerCount) (plan : Plan) : List WorkItem :=
  (plan.filter fun entry => entry.1 = w.val).map fun entry => .ofUnit entry.2

theorem itemsFor_append (w : Fin workerCount) (plan plan' : Plan) :
    itemsFor w (plan ++ plan') = itemsFor w plan ++ itemsFor w plan' := by
  simp [itemsFor]

/-! ## What is left to send -/

/-- Every assignment names a worker of the pool, and a bundle by a number. -/
def Sendable (workerCount : ℕ) (assignments : List WorkerAssignment) : Prop :=
  ∀ a ∈ assignments, a.workerId < workerCount ∧
    (a.isBundle = true → Decimal.parseU64 a.unitId ≠ none)

/-- The plan is still to be sent, or nothing is and the call returned `Ok`. -/
def Rest (plan : Plan) (s : TpuRun workerCount) : Prop :=
  match s.pc.remaining with
  | some (assignments, maps) =>
    Sendable workerCount assignments ∧ placementFrom assignments maps = plan
  | none => s.pc = .returned (.ok ()) ∧ plan = []

theorem take_ne_error {assignments : List WorkerAssignment} {a : WorkerAssignment}
    {maps : UnitMaps} {e : MevError} (hSendable : Sendable workerCount (a :: assignments)) :
    maps.take a ≠ .error e := by
  intro hTake
  obtain ⟨-, hParses⟩ := hSendable a List.mem_cons_self
  unfold UnitMaps.take at hTake
  split at hTake
  · rename_i hBundle
    cases hId : Decimal.parseU64 a.unitId with
    | none => exact hParses hBundle hId
    | some id =>
      rw [hId] at hTake
      cases hTake
  · cases hTake

theorem send_ne_error {pool : AsyncWorkerPool workerCount} (hOpen : Open pool) {workerId : ℕ}
    (hWorker : workerId < workerCount) {work : WorkItem} {e : MevError} :
    pool.send workerId work ≠ .error e := by
  have hLive : pool.isClosed ⟨workerId, hWorker⟩ = false := by
    have hStopped := (hOpen ⟨workerId, hWorker⟩).stopped
    unfold isClosed
    split
    · rename_i hPhase
      exact absurd hPhase hStopped
    · rfl
  intro hSend
  rw [AsyncWorkerPool.send, dif_pos hWorker, hLive] at hSend
  cases hSend

theorem ofUnit_ne_shutdown (unit : SchedulableUnit) : WorkItem.ofUnit unit ≠ .shutdown := by
  cases unit with
  | bundle => exact WorkItem.noConfusion
  | transaction => exact WorkItem.noConfusion

theorem step_open {s s' : TpuRun workerCount} {act : TpuAct workerCount} (hOpen : Open s.pool)
    (h : s.step act = some s') : Open s'.pool := by
  cases act with
  | work v =>
    obtain ⟨pool, hWork, rfl⟩ := Option.map_eq_some_iff.mp h
    exact workStep_open hOpen hWork
  | caller =>
    have hRule := callerRule_of_step h
    generalize s.sends .caller = sent at hRule
    cases hRule with
    | send => exact enqueue_open hOpen (ofUnit_ne_shutdown _)
    | _ => exact hOpen

/-! ## The queues -/

/-- A worker that is not to stop takes its items from the head of its queue. -/
theorem runStep_queue {id : ℕ} {worker worker' : AsyncWorker} {locked locked' : Finset Pubkey}
    {completion : Option WorkCompletion} (hOpen : AsyncWorker.Open worker)
    (h : AsyncWorker.Step id worker locked worker' locked' completion) :
    worker.queue = received worker ++ worker'.queue := by
  cases h with
  | stop => exact absurd rfl hOpen.stopping
  | _ => rfl

theorem workStep_queue {s : TpuRun workerCount} {pool : AsyncWorkerPool workerCount}
    {v : Fin workerCount} (hOpen : Open s.pool) (h : s.pool.workStep v = some pool)
    (w : Fin workerCount) :
    (s.pool.workers w).queue = s.receives w (.work v) ++ (pool.workers w).queue := by
  obtain ⟨worker, locked, completion, hStep, rfl⟩ := workStep_cases h
  by_cases hw : v = w
  · subst hw
    simp only [TpuRun.receives, if_pos, Function.update_self]
    exact runStep_queue (hOpen v) hStep
  · simp only [TpuRun.receives, if_neg hw, Function.update_of_ne (Ne.symm hw), List.nil_append]

theorem enqueue_queue (pool : AsyncWorkerPool workerCount) (v w : Fin workerCount)
    (unit : SchedulableUnit) :
    ((pool.enqueue v (.ofUnit unit)).workers w).queue =
      (pool.workers w).queue ++ itemsFor w [(v.val, unit)] := by
  by_cases hw : w = v
  · subst hw
    simp [enqueue, itemsFor]
  · have hne : v.val ≠ w.val := fun h => hw (Fin.ext h.symm)
    simp [enqueue, itemsFor, hw, hne]

/-- A queue gets what the step sends and loses only what its worker receives. -/
theorem step_queue {s s' : TpuRun workerCount} {act : TpuAct workerCount} (hOpen : Open s.pool)
    (h : s.step act = some s') (w : Fin workerCount) :
    (s.pool.workers w).queue ++ itemsFor w (s.sends act) =
      s.receives w act ++ (s'.pool.workers w).queue := by
  cases act with
  | work v =>
    obtain ⟨pool, hWork, rfl⟩ := Option.map_eq_some_iff.mp h
    exact (List.append_nil _).trans (workStep_queue hOpen hWork w)
  | caller =>
    have hRule := callerRule_of_step h
    generalize s.sends .caller = sent at hRule ⊢
    cases hRule with
    | send hTake hWorker =>
      rw [← hWorker]
      exact (enqueue_queue _ _ _ _).symm
    | _ => exact List.append_nil _

/-- What was in the queue and what was sent is received, in this order, or still there. -/
theorem sentAlong_queue {start s : TpuRun workerCount} {acts : List (TpuAct workerCount)}
    (hOpen : Open start.pool) (hRun : run TpuRun.step start acts = some s) (w : Fin workerCount) :
    (start.pool.workers w).queue ++ itemsFor w (sentAlong start acts) =
      receivedAlong w start acts ++ (s.pool.workers w).queue := by
  induction acts generalizing start with
  | nil =>
    cases hRun
    exact List.append_nil _
  | cons act acts ih =>
    obtain ⟨mid, hMid, hRest⟩ := run_cons_eq_some_iff.mp hRun
    have hFirst := step_queue hOpen hMid w
    have hLater := ih (step_open hOpen hMid) hRest
    rw [sentAlong, receivedAlong, hMid]
    simp only [itemsFor_append]
    rw [← List.append_assoc, hFirst, List.append_assoc, hLater, List.append_assoc]

/-! ## The rest of the plan -/

/-- A step sends the first part of what was left. -/
theorem step_rest {s s' : TpuRun workerCount} {act : TpuAct workerCount} {plan : Plan}
    (hOpen : Open s.pool) (hRest : Rest plan s) (h : s.step act = some s') :
    ∃ plan', plan = s.sends act ++ plan' ∧ Rest plan' s' := by
  cases act with
  | work v =>
    obtain ⟨pool, hWork, rfl⟩ := Option.map_eq_some_iff.mp h
    exact ⟨plan, rfl, hRest⟩
  | caller =>
    have hRule := callerRule_of_step h
    generalize s.sends .caller = sent at hRule ⊢
    cases hRule with
    | finish =>
      obtain ⟨-, rfl⟩ := hRest
      exact ⟨[], rfl, rfl, rfl⟩
    | refuse hTake => exact absurd hTake (take_ne_error hRest.1)
    | @skip a assignments maps maps' pool hTake =>
      obtain ⟨hSendable, rfl⟩ := hRest
      have hSkip : placementFrom (a :: assignments) maps = placementFrom assignments maps' := by
        rw [placementFrom, hTake]
      exact ⟨_, rfl, fun b hb => hSendable b (List.mem_cons_of_mem _ hb), hSkip.symm⟩
    | @send a assignments maps maps' unit pool w hTake hWorker =>
      obtain ⟨hSendable, rfl⟩ := hRest
      refine ⟨placementFrom assignments maps', ?_,
        fun b hb => hSendable b (List.mem_cons_of_mem _ hb), rfl⟩
      rw [placementFrom, hTake]
      rfl
    | fail hTake hSend =>
      exact absurd hSend (send_ne_error hOpen (hRest.1 _ List.mem_cons_self).1)
    | count => exact ⟨plan, rfl, hRest⟩

theorem run_rest {start s : TpuRun workerCount} {acts : List (TpuAct workerCount)} {plan : Plan}
    (hOpen : Open start.pool) (hRest : Rest plan start)
    (hRun : run TpuRun.step start acts = some s) :
    ∃ plan', plan = sentAlong start acts ++ plan' ∧ Rest plan' s := by
  induction acts generalizing start plan with
  | nil =>
    cases hRun
    exact ⟨plan, rfl, hRest⟩
  | cons act acts ih =>
    obtain ⟨mid, hMid, hLater⟩ := run_cons_eq_some_iff.mp hRun
    obtain ⟨plan₁, rfl, hRest₁⟩ := step_rest hOpen hRest hMid
    obtain ⟨plan₂, rfl, hRest₂⟩ := ih (step_open hOpen hMid) hRest₁ hLater
    refine ⟨plan₂, ?_, hRest₂⟩
    rw [sentAlong, hMid, List.append_assoc]

/-! ## The steps of the caller -/

def TpuAct.isCaller : TpuAct workerCount → Bool
  | .caller => true
  | .work _ => false

/-- The steps that the call has left at most. -/
def TpuPc.stepsLeft : TpuPc → ℕ
  | .dispatching assignments _ => 2 * assignments.length + 1
  | .counting assignments _ => 2 * assignments.length + 2
  | .returned _ => 0

theorem callerRule_stepsLeft {s s' : TpuRun workerCount} {sent : Plan} (h : CallerRule s s' sent) :
    s'.pc.stepsLeft < s.pc.stepsLeft := by
  cases h <;> simp only [TpuPc.stepsLeft, List.length_nil, List.length_cons] <;> omega

theorem countP_isCaller_le {start s : TpuRun workerCount} {acts : List (TpuAct workerCount)}
    (hRun : run TpuRun.step start acts = some s) :
    acts.countP TpuAct.isCaller + s.pc.stepsLeft ≤ start.pc.stepsLeft := by
  induction acts generalizing start with
  | nil =>
    cases hRun
    exact Nat.le_of_eq (Nat.zero_add _)
  | cons act acts ih =>
    obtain ⟨mid, hMid, hRest⟩ := run_cons_eq_some_iff.mp hRun
    have hLe := ih hRest
    cases act with
    | caller =>
      have hLt := callerRule_stepsLeft (callerRule_of_step hMid)
      rw [List.countP_cons_of_pos rfl]
      omega
    | work v =>
      obtain ⟨pool, -, rfl⟩ := Option.map_eq_some_iff.mp hMid
      rw [List.countP_cons_of_neg Bool.false_ne_true]
      exact hLe

/-- Nothing that the caller does waits. -/
theorem returned_of_blocked {s : TpuRun workerCount} (h : s.step .caller = none) :
    ∃ result, s.pc = .returned result := by
  obtain ⟨pc, pool⟩ := s
  cases pc with
  | returned result => exact ⟨result, rfl⟩
  | counting => cases h
  | dispatching assignments maps =>
    cases assignments with
    | nil => cases h
    | cons a assignments =>
      simp only [TpuRun.step, TpuRun.callerStep] at h
      split at h
      · cases h
      · cases h
      · split at h <;> cases h

/-! ## The units of a batch with distinct ids -/

/-- The key of a unit in its map. -/
def mapKey : SchedulableUnit → UInt64 ⊕ String
  | .bundle bundle => .inl bundle.id
  | .transaction tx => .inr tx.signature

/-- The unit is in its map. -/
def UnitMaps.Holds (maps : UnitMaps) : SchedulableUnit → Prop
  | .bundle bundle => maps.bundles.lookup bundle.id = some bundle
  | .transaction tx => maps.txs.lookup tx.signature = some tx

/-- An assignment of a unit takes it out and leaves the units with other keys. -/
theorem take_assignment {maps : UnitMaps} {unit : SchedulableUnit} (hHolds : maps.Holds unit)
    (w : ℕ) :
    ∃ maps', maps.take (unit.assignment w) = .ok (some unit, maps') ∧
      ∀ other, mapKey other ≠ mapKey unit → maps.Holds other → maps'.Holds other := by
  cases unit with
  | bundle bundle =>
    have hLookup : maps.bundles.lookup bundle.id = some bundle := hHolds
    refine ⟨{ maps with bundles := maps.bundles.erase bundle.id }, ?_, ?_⟩
    · simp only [UnitMaps.take, SchedulableUnit.assignment, SchedulableUnit.isAtomic,
        SchedulableUnit.unitId, if_true, Decimal.parseU64_toString, hLookup, Option.map_some]
    · intro other hKey hOther
      cases other with
      | transaction => exact hOther
      | bundle other =>
        have hne : other.id ≠ bundle.id := fun h => hKey (congrArg Sum.inl h)
        exact (Finmap.lookup_erase_ne hne).trans hOther
  | transaction tx =>
    have hLookup : maps.txs.lookup tx.signature = some tx := hHolds
    refine ⟨{ maps with txs := maps.txs.erase tx.signature }, ?_, ?_⟩
    · simp only [UnitMaps.take, SchedulableUnit.assignment, SchedulableUnit.isAtomic,
        SchedulableUnit.unitId, Bool.false_eq_true, if_false, hLookup, Option.map_some]
    · intro other hKey hOther
      cases other with
      | bundle => exact hOther
      | transaction other =>
        have hne : other.signature ≠ tx.signature := fun h => hKey (congrArg Sum.inr h)
        exact (Finmap.lookup_erase_ne hne).trans hOther

/-- The units with the workers of their assignments. -/
def planOf (order : List SchedulableUnit) (assignments : List WorkerAssignment) : Plan :=
  List.zipWith (fun unit a => (a.workerId, unit)) order assignments

theorem placementFrom_eq {order : List SchedulableUnit} {assignments : List WorkerAssignment}
    (hAssigned : List.Forall₂ (fun unit a => ∃ w < workerCount,
      a = SchedulableUnit.assignment unit w) order assignments)
    (hKeys : (order.map mapKey).Nodup) {maps : UnitMaps} (hHolds : ∀ unit ∈ order, maps.Holds unit) :
    placementFrom assignments maps = planOf order assignments := by
  induction hAssigned generalizing maps with
  | nil => rfl
  | @cons unit a order assignments hHead _ ih =>
    obtain ⟨w, -, rfl⟩ := hHead
    obtain ⟨hFresh, hKeys⟩ := List.nodup_cons.mp hKeys
    obtain ⟨hUnit, hOrder⟩ := List.forall_mem_cons.mp hHolds
    obtain ⟨maps', hTake, hOthers⟩ := take_assignment hUnit w
    have hRest : placementFrom assignments maps' = planOf order assignments := by
      refine ih hKeys fun other hOther => hOthers other ?_ (hOrder other hOther)
      intro hSame
      exact hFresh (hSame ▸ List.mem_map_of_mem hOther)
    rw [placementFrom, hTake]
    exact congrArg (List.cons _) hRest

theorem sendable_of_assigned {order : List SchedulableUnit} {assignments : List WorkerAssignment}
    (hAssigned : List.Forall₂ (fun unit a => ∃ w < workerCount,
      a = SchedulableUnit.assignment unit w) order assignments) :
    Sendable workerCount assignments := by
  induction hAssigned with
  | nil => exact List.forall_mem_nil _
  | @cons unit a _ _ hHead _ ih =>
    obtain ⟨w, hw, rfl⟩ := hHead
    refine List.forall_mem_cons.mpr ⟨⟨hw, fun hBundle => ?_⟩, ih⟩
    cases unit with
    | transaction => cases hBundle
    | bundle bundle =>
      simp only [SchedulableUnit.assignment, SchedulableUnit.unitId, Decimal.parseU64_toString]
      exact Option.some_ne_none _

section Batch

variable {bundles bundleValues : List Bundle} {looseTxs txValues : List Transaction}

theorem mapKey_nodup (hIds : (bundles.map Bundle.id).Nodup)
    (hSignatures : (looseTxs.map Transaction.signature).Nodup) :
    ((batchUnits bundles looseTxs).map mapKey).Nodup := by
  rw [batchUnits, List.map_append, List.map_map, List.map_map]
  refine List.nodup_append.mpr ⟨?_, ?_, ?_⟩
  · have h := hIds.map (Sum.inl_injective (β := String))
    rwa [List.map_map] at h
  · have h := hSignatures.map (Sum.inr_injective (α := UInt64))
    rwa [List.map_map] at h
  · intro key hKey other hOther
    obtain ⟨bundle, -, rfl⟩ := List.mem_map.mp hKey
    obtain ⟨tx, -, rfl⟩ := List.mem_map.mp hOther
    exact Sum.inl_ne_inr

/-- The values of the maps are found under their keys. -/
theorem holds_values (hBundles : IsValues (bundleMap bundles) bundleValues)
    (hTxs : IsValues (txMap looseTxs) txValues) :
    ∀ unit ∈ batchUnits bundleValues txValues,
      (UnitMaps.mk (bundleMap bundles) (txMap looseTxs)).Holds unit := by
  intro unit hUnit
  rcases List.mem_append.mp hUnit with hUnit | hUnit
  · obtain ⟨bundle, hBundle, rfl⟩ := List.mem_map.mp hUnit
    exact hBundles.lookup_key hBundle
  · obtain ⟨tx, hTx, rfl⟩ := List.mem_map.mp hUnit
    exact hTxs.lookup_key hTx

/-- Assignments of some of the values: these values are still to be sent. -/
theorem rest_of_assigned (hBundles : IsValues (bundleMap bundles) bundleValues)
    (hTxs : IsValues (txMap looseTxs) txValues) {order : List SchedulableUnit}
    {assignments : List WorkerAssignment} (hOrder : order.Subperm (batchUnits bundleValues txValues))
    (hAssigned : List.Forall₂ (fun unit a => ∃ w < workerCount,
      a = SchedulableUnit.assignment unit w) order assignments)
    (pool : AsyncWorkerPool workerCount) :
    Rest (planOf order assignments)
      ⟨.dispatching assignments ⟨bundleMap bundles, txMap looseTxs⟩, pool⟩ := by
  refine ⟨sendable_of_assigned hAssigned, placementFrom_eq hAssigned ?_ ?_⟩
  · have hKeys := mapKey_nodup hBundles.key_nodup hTxs.key_nodup
    obtain ⟨values, hPerm, hSublist⟩ := hOrder
    exact (hPerm.map mapKey).nodup_iff.mp (hKeys.sublist (hSublist.map mapKey))
  · exact fun unit hUnit => holds_values hBundles hTxs unit (hOrder.subset hUnit)

/-- The values of the maps are the units of the batch. -/
theorem batchUnits_values_perm (hIds : (bundles.map Bundle.id).Nodup)
    (hSignatures : (looseTxs.map Transaction.signature).Nodup)
    (hBundles : IsValues (bundleMap bundles) bundleValues)
    (hTxs : IsValues (txMap looseTxs) txValues) :
    (batchUnits bundleValues txValues).Perm (batchUnits bundles looseTxs) := by
  have hB := hBundles.perm (by rwa [List.map_map])
  have hT := hTxs.perm (by rwa [List.map_map])
  rw [List.map_map] at hB hT
  refine List.Perm.append (List.Perm.map _ ?_) (List.Perm.map _ ?_)
  · exact hB.trans (List.Perm.of_eq (List.map_id bundles))
  · exact hT.trans (List.Perm.of_eq (List.map_id looseTxs))

/-! ## Main result -/

/-- With distinct ids and live workers the call sends every unit of a batch of at most
2000 once, in the order and to the workers of the assignments, and returns `Ok`. The
workers may run in between; the caller waits for nothing and has a bounded number of
steps. -/
theorem processBatch_delivers (heap : PrioGraphScheduler.BinaryHeap) (hCount : 1 ≤ workerCount)
    {scheduler : AdaptiveScheduler workerCount}
    (hScheduler : Reachable (AdaptiveScheduler.step heap) (.new workerCount) scheduler)
    {pool : AsyncWorkerPool workerCount} (hOpen : Open pool)
    (hSize : bundles.length + looseTxs.length ≤ 2000) (hIds : (bundles.map Bundle.id).Nodup)
    (hSignatures : (looseTxs.map Transaction.signature).Nodup)
    (hBundles : IsValues (bundleMap bundles) bundleValues)
    (hTxs : IsValues (txMap looseTxs) txValues) :
    ∃ order assignments start,
      (scheduler.schedule heap bundleValues txValues).2 = .ok assignments ∧
      processBatch heap scheduler pool bundles looseTxs bundleValues txValues = .ok start ∧
      order.Perm (batchUnits bundles looseTxs) ∧
      List.Forall₂ (fun unit a => ∃ w < workerCount, a = SchedulableUnit.assignment unit w)
        order assignments ∧
      ∀ acts s, run TpuRun.step start acts = some s →
        sentAlong start acts <+: planOf order assignments ∧
        (∀ result, s.pc = .returned result →
          result = .ok () ∧ sentAlong start acts = planOf order assignments) ∧
        (∀ w, (pool.workers w).queue ++ itemsFor w (sentAlong start acts) =
          receivedAlong w start acts ++ (s.pool.workers w).queue) ∧
        (s.step .caller = none → ∃ result, s.pc = .returned result) ∧
        acts.countP TpuAct.isCaller ≤ 2 * (bundles.length + looseTxs.length) + 1 := by
  have hPerm := batchUnits_values_perm hIds hSignatures hBundles hTxs
  have hLe : (batchUnits bundleValues txValues).length ≤ 2000 := by
    rw [hPerm.length_eq, length_batchUnits]
    exact hSize
  obtain ⟨assignments, hSchedule, order, hOrder, hAssigned⟩ :=
    PrioGraphScheduler.schedule_spec heap hCount bundleValues txValues
  have hUnits := hOrder.trans hPerm
  have hAdaptive : (scheduler.schedule heap bundleValues txValues).2 = .ok assignments := by
    rw [AdaptiveScheduler.schedule_of_le (threshold_of_reachable hScheduler) hLe, hSchedule]
  let start : TpuRun workerCount :=
    ⟨.dispatching assignments ⟨bundleMap bundles, txMap looseTxs⟩, pool⟩
  have hRest : Rest (planOf order assignments) start :=
    rest_of_assigned hBundles hTxs hOrder.subperm hAssigned pool
  refine ⟨order, assignments, start, hAdaptive, ?_, hUnits, hAssigned, ?_⟩
  · rw [processBatch, hAdaptive]
    rfl
  intro acts s hRun
  obtain ⟨left, hPlan, hLeft⟩ := run_rest hOpen hRest hRun
  refine ⟨hPlan ▸ List.prefix_append _ _, ?_, sentAlong_queue hOpen hRun, returned_of_blocked, ?_⟩
  · intro result hReturned
    rw [Rest, hReturned] at hLeft
    obtain ⟨hOk, rfl⟩ := hLeft
    cases hOk
    exact ⟨rfl, by rw [hPlan, List.append_nil]⟩
  · have hSteps := countP_isCaller_le hRun
    have hLength : assignments.length = bundles.length + looseTxs.length := by
      rw [← hAssigned.length_eq, hUnits.length_eq, length_batchUnits]
    simp only [start, TpuPc.stepsLeft, hLength] at hSteps
    omega

end Batch

/-- A bundle and a transaction with one and the same id. -/
theorem processBatch_delivers_sameId :
    let heap : PrioGraphScheduler.BinaryHeap := fun _ => PriorityQueue.MaxHeap.ofList _
    let bundle := Bundle.new 7 [] 1 "s"
    let tx := Transaction.new "7" [] 1 1
    ∃ order assignments start,
      processBatch heap (AdaptiveScheduler.new 2) (spawn 2) [bundle] [tx] [bundle] [tx] =
        .ok start ∧
      order.Perm [.bundle bundle, .transaction tx] ∧
      ∀ acts s, run TpuRun.step start acts = some s → ∀ result, s.pc = .returned result →
        result = .ok () ∧ sentAlong start acts = planOf order assignments := by
  intro heap bundle tx
  have hIds : ([bundle].map Bundle.id).Nodup := List.nodup_singleton _
  have hSignatures : ([tx].map Transaction.signature).Nodup := List.nodup_singleton _
  have hBundles : IsValues (bundleMap [bundle]) [bundle] := rfl
  have hTxs : IsValues (txMap [tx]) [tx] := rfl
  obtain ⟨order, assignments, start, -, hStart, hOrder, -, hRuns⟩ :=
    processBatch_delivers heap (by decide) (Reachable.refl _) (spawn_open 2) (by decide) hIds
      hSignatures hBundles hTxs
  exact ⟨order, assignments, start, hStart, hOrder, fun acts s hRun => (hRuns acts s hRun).2.1⟩

end Blunder.TpuPipeline
