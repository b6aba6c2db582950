import Blunder.Engine.Ranking
import Blunder.Engine.Shutdown

/-!
# The life of a TPU pipeline

The owner of a `TpuPipeline` calls `process_batch` for one batch after another and then
`shutdown`. The workers run between any two steps of these calls. No call waits for the
completions of its units: they are received at the shutdown.

* `asOwned_caller`: for its pool the pipeline is an owner that sends units only.
* `step_inv`: what was sent and what is still to be sent are units that were handed in.
* `reachable_delivered`: what becomes of the units of all batches.
-/

namespace Blunder.TpuPipeline

open Foundation.HashMap Foundation.Transition AsyncWorkerPool

variable {workerCount : ℕ}

/-! ## Scheduling a batch of any size -/

section Batch

variable {bundles bundleValues : List Bundle} {looseTxs txValues : List Transaction}

/-- The scheduler assigns some of the units of a batch, and all of a small one. -/
theorem schedule_assigned (heap : PrioGraphScheduler.BinaryHeap) (hCount : 1 ≤ workerCount)
    {scheduler : AdaptiveScheduler workerCount}
    (hThreshold : scheduler.loadMonitor.highThreshold = 2000) (bundles : List Bundle)
    (looseTxs : List Transaction) :
    ∃ order assignments, (scheduler.schedule heap bundles looseTxs).2 = .ok assignments ∧
      order.Subperm (batchUnits bundles looseTxs) ∧
      ((batchUnits bundles looseTxs).length ≤ 2000 → order.Perm (batchUnits bundles looseTxs)) ∧
      List.Forall₂ (fun unit a => ∃ w < workerCount, a = SchedulableUnit.assignment unit w)
        order assignments := by
  rcases Nat.lt_or_ge 2000 (batchUnits bundles looseTxs).length with hGt | hLe
  · obtain ⟨hSublist, hAssigned, -⟩ := planFit_spec (batchUnits bundles looseTxs)
      (Foundation.FirstFit.fit scheduler.greedy.lockedAccounts
        (GreedyScheduler.accountSets (batchUnits bundles looseTxs)))
    refine ⟨_, _, ?_, hSublist.subperm, fun hLe => absurd hLe (Nat.not_le.mpr hGt), hAssigned⟩
    rw [AdaptiveScheduler.schedule_of_gt hThreshold hGt, GreedyScheduler.schedule_eq]
  · obtain ⟨assignments, hSchedule, order, hOrder, hAssigned⟩ :=
      PrioGraphScheduler.schedule_spec heap hCount bundles looseTxs
    refine ⟨order, assignments, ?_, hOrder.subperm, fun _ => hOrder, hAssigned⟩
    rw [AdaptiveScheduler.schedule_of_le hThreshold hLe, hSchedule]

/-- The values of the maps are units of the batch. -/
theorem batchUnits_values_subperm (hBundles : IsValues (bundleMap bundles) bundleValues)
    (hTxs : IsValues (txMap looseTxs) txValues) :
    (batchUnits bundleValues txValues).Subperm (batchUnits bundles looseTxs) := by
  have hB := hBundles.subperm
  have hT := hTxs.subperm
  rw [List.map_map] at hB hT
  have hUnits : bundleValues.Subperm bundles :=
    hB.trans (List.Perm.of_eq (List.map_id bundles)).subperm
  have hTxUnits : txValues.Subperm looseTxs :=
    hT.trans (List.Perm.of_eq (List.map_id looseTxs)).subperm
  exact (hUnits.map fun _ _ => SchedulableUnit.bundle.inj).append
    (hTxUnits.map fun _ _ => SchedulableUnit.transaction.inj)

end Batch

/-! ## Steps -/

/-- `handedIn` and `sent` are records of the units of all batches and of those that were sent. -/
structure TpuSession (workerCount : ℕ) where
  scheduler : AdaptiveScheduler workerCount
  call : TpuRun workerCount
  shutdown : ShutdownPc
  drained : List WorkCompletion
  handedIn : List SchedulableUnit
  sent : Plan

/-- A call of `process_batch` is a client of the pool that sends. -/
def TpuPc.client : TpuPc → ClientPc
  | .counting _ _ => .counting
  | _ => .idle

namespace TpuSession

/-- `TpuPipeline::new`, with no call in progress. -/
def new (workerCount : ℕ) : TpuSession workerCount where
  scheduler := .new workerCount
  call := ⟨.returned (.ok ()), spawn workerCount⟩
  shutdown := .notCalled
  drained := []
  handedIn := []
  sent := []

/-- The units that were sent, by their ids. -/
def sentEntries (s : TpuSession workerCount) : List (ℕ × String) :=
  s.sent.map fun entry => (entry.1, entry.2.unitId)

/-- The pool as `AsyncWorkerPool::shutdown` takes it over. -/
def asOwned (s : TpuSession workerCount) : OwnedPool workerCount where
  calls :=
    { pool := s.call.pool
      clients := fun _ => s.call.pc.client
      receiver := none
      sent := fun _ => s.sentEntries }
  drained := s.drained
  pc := s.shutdown

def withOwned (s : TpuSession workerCount) (owned : OwnedPool workerCount) :
    TpuSession workerCount :=
  { s with
    call := { s.call with pool := owned.calls.pool }
    drained := owned.drained
    shutdown := owned.pc }

inductive Act (workerCount : ℕ)
  | processBatch (bundles : List Bundle) (looseTxs : List Transaction)
    (bundleValues : List Bundle) (txValues : List Transaction)
  | caller
  | work (w : Fin workerCount)
  | shutdown
  | proceed

/-- A call of `process_batch` up to its first assignment. A call that panics sends nothing. -/
def begin (heap : PrioGraphScheduler.BinaryHeap) (s : TpuSession workerCount)
    (bundles : List Bundle) (looseTxs : List Transaction) (bundleValues : List Bundle)
    (txValues : List Transaction) : TpuSession workerCount :=
  let scheduler := (s.scheduler.schedule heap bundleValues txValues).1
  match processBatch heap s.scheduler s.call.pool bundles looseTxs bundleValues txValues with
  | .ok call => { s with scheduler, call, handedIn := s.handedIn ++ batchUnits bundles looseTxs }
  | .error _ => { s with scheduler }

instance (bundles values : List Bundle) : Decidable (IsValues (bundleMap bundles) values) :=
  inferInstanceAs (Decidable ((values : Multiset Bundle) = _))

instance (looseTxs values : List Transaction) : Decidable (IsValues (txMap looseTxs) values) :=
  inferInstanceAs (Decidable ((values : Multiset Transaction) = _))

/-- The steps of the owner and of the workers. The owner makes one call at a time, and
`shutdown` consumes the pipeline. -/
def step (heap : PrioGraphScheduler.BinaryHeap) (s : TpuSession workerCount) :
    Act workerCount → Option (TpuSession workerCount)
  | .processBatch bundles looseTxs bundleValues txValues =>
    match s.shutdown, s.call.pc with
    | .notCalled, .returned _ =>
      if IsValues (bundleMap bundles) bundleValues ∧ IsValues (txMap looseTxs) txValues then
        some (s.begin heap bundles looseTxs bundleValues txValues)
      else none
    | _, _ => none
  | .caller =>
    s.call.callerStep.map fun call => { s with call, sent := s.sent ++ s.call.sends .caller }
  | .work w => (s.call.pool.workStep w).map fun pool => { s with call := { s.call with pool } }
  | .shutdown =>
    match s.call.pc with
    | .returned _ => (s.asOwned.step .shutdown).map s.withOwned
    | _ => none
  | .proceed => s.asOwned.proceed.map s.withOwned

/-- At most 2000 units with different ids. -/
def Act.IsSmall : Act workerCount → Prop
  | .processBatch bundles looseTxs _ _ =>
    bundles.length + looseTxs.length ≤ 2000 ∧ (bundles.map Bundle.id).Nodup ∧
      (looseTxs.map Transaction.signature).Nodup
  | _ => True

instance (act : Act workerCount) : Decidable act.IsSmall :=
  match act with
  | .processBatch bundles looseTxs _ _ =>
    inferInstanceAs (Decidable (bundles.length + looseTxs.length ≤ 2000 ∧
      (bundles.map Bundle.id).Nodup ∧ (looseTxs.map Transaction.signature).Nodup))
  | .caller => inferInstanceAs (Decidable True)
  | .work _ => inferInstanceAs (Decidable True)
  | .shutdown => inferInstanceAs (Decidable True)
  | .proceed => inferInstanceAs (Decidable True)

/-! ## The pool of the pipeline -/

variable {heap : PrioGraphScheduler.BinaryHeap} {s s' : TpuSession workerCount}
  {act : Act workerCount}

/-- The shutdown touches the pool only. -/
theorem asOwned_withOwned {owned : OwnedPool workerCount}
    (hCalls : owned.calls = { s.asOwned.calls with pool := owned.calls.pool }) :
    (s.withOwned owned).asOwned = owned := by
  obtain ⟨calls, drained, pc⟩ := owned
  exact congrArg (fun calls => (⟨calls, drained, pc⟩ : OwnedPool workerCount)) hCalls.symm

theorem proceed_withOwned {owned : OwnedPool workerCount} (h : s.asOwned.proceed = some owned) :
    (s.withOwned owned).asOwned = owned := by
  apply asOwned_withOwned
  rw [OwnedPool.proceed] at h
  split at h
  · cases h
  · split at h
    · split at h
      · cases h
        rfl
      · split at h <;> cases h
        rfl
    · cases h
      rfl
  · split at h <;> cases h <;> rfl
  · cases h
    rfl
  · cases h

theorem shutdown_withOwned {owned : OwnedPool workerCount}
    (h : s.asOwned.step .shutdown = some owned) : (s.withOwned owned).asOwned = owned := by
  apply asOwned_withOwned
  rw [OwnedPool.step] at h
  split at h
  · split at h <;> cases h <;> rfl
  · cases h

/-- An open worker takes a unit. -/
theorem step_send {owned : OwnedPool workerCount} (hPc : owned.pc = .notCalled)
    (hIdle : owned.calls.clients 0 = .idle) (hOpen : Open owned.calls.pool) (w : Fin workerCount)
    (unit : SchedulableUnit) (hRoom : owned.calls.pool.inFlight + 1 + 1 < UInt64.size) :
    owned.step (.call (.send 0 w (.ofUnit unit))) = some { owned with
      calls := { owned.calls.goto 0 .counting with
        pool := owned.calls.pool.enqueue w (.ofUnit unit)
        sent := Function.update owned.calls.sent 0
          (owned.calls.sent 0 ++ [(w.val, unit.unitId)]) } } := by
  have hSend : owned.calls.pool.send w (.ofUnit unit) =
      .ok (owned.calls.pool.enqueue w (.ofUnit unit)) := by
    rcases send_cases owned.calls.pool w (.ofUnit unit) with ⟨v, hv, -, hSend⟩ | ⟨e, hSend⟩
    · rwa [Fin.ext hv] at hSend
    · exact absurd hSend (send_ne_error hOpen w.isLt)
  simp only [OwnedPool.step, hPc, PoolClients.step, hIdle, PoolClients.sendWork, hSend,
    WorkItem.unit?_ofUnit, if_pos hRoom, Option.map_some]

/-- The owner counts what it has sent. -/
theorem step_count {owned : OwnedPool workerCount} (hPc : owned.pc = .notCalled)
    (hCounting : owned.calls.clients 0 = .counting) :
    owned.step (.call (.proceed 0)) = some { owned with
      calls := { owned.calls.goto 0 .idle with pool := owned.calls.pool.countPending } } := by
  simp only [OwnedPool.step, hPc, PoolClients.step, PoolClients.proceed, hCounting,
    Option.map_some]

/-- With a single client an update of its state is the new state. -/
theorem update_single {β : Type} (f : Fin 1 → β) (b : β) : Function.update f 0 b = fun _ => b := by
  funext c
  rw [Subsingleton.elim c 0, Function.update_self]

/-- A step of a call is nothing to the pool, or it is a send or a count of its owner. -/
theorem asOwned_caller {call : TpuRun workerCount} (hNotCalled : s.shutdown = .notCalled)
    (hOpen : Open s.call.pool)
    (hRoom : s.call.pool.inFlight + (s.call.sends .caller).length + 1 < UInt64.size)
    (h : s.call.callerStep = some call) :
    { s with call, sent := s.sent ++ s.call.sends .caller }.asOwned = s.asOwned ∨
      ∃ act : OwnedPool.Act workerCount, ¬ act.SendsShutdown ∧
        s.asOwned.step act =
          some { s with call, sent := s.sent ++ s.call.sends .caller }.asOwned := by
  obtain ⟨scheduler, call', shutdown, drained, handedIn, sent⟩ := s
  have hRule := callerRule_of_step h
  dsimp only at hRule hRoom hOpen hNotCalled ⊢
  generalize call'.sends .caller = sends at hRule hRoom ⊢
  subst hNotCalled
  cases hRule with
  | @send a assignments maps maps' unit pool w hTake hWorker =>
    right
    refine ⟨.call (.send 0 w (.ofUnit unit)), ofUnit_ne_shutdown unit, ?_⟩
    rw [step_send rfl rfl hOpen w unit hRoom]
    simp only [asOwned, sentEntries, PoolClients.goto, update_single, List.map_append, hWorker]
    rfl
  | @count assignments maps pool =>
    right
    refine ⟨.call (.proceed 0), id, ?_⟩
    rw [step_count rfl rfl]
    simp only [asOwned, sentEntries, PoolClients.goto, update_single, List.append_nil]
    rfl
  | _ =>
    left
    simp only [asOwned, sentEntries, List.append_nil]
    rfl

/-! ## The invariant -/

/-- What holds of a session at every point. `whole` says that all batches are small.
* `accepted`: what was sent and what is still to be sent are units that were handed in. -/
structure Inv (whole : Prop) (s : TpuSession workerCount) : Prop where
  owned : OwnedPool.Inv s.asOwned
  ended : s.shutdown ≠ .notCalled → ∃ result, s.call.pc = .returned result
  threshold : s.scheduler.loadMonitor.highThreshold = 2000
  accepted : ∃ left, Rest left s.call ∧ ((s.sent ++ left).map Prod.snd).Subperm s.handedIn ∧
    (whole → ((s.sent ++ left).map Prod.snd).Perm s.handedIn)

variable {whole : Prop}

theorem new_inv (whole : Prop) : Inv whole (new workerCount) where
  owned := OwnedPool.new_inv
  ended h := absurd rfl h
  threshold := rfl
  accepted := ⟨[], ⟨rfl, rfl⟩, List.Subperm.refl _, fun _ => List.Perm.refl _⟩

theorem collected_client (pc : TpuPc) : pc.client.collected = [] := by
  cases pc with
  | counting => rfl
  | _ => rfl

/-- Before the shutdown all that was sent is in flight. -/
theorem Inv.inFlight (hs : Inv whole s) (hNotCalled : s.shutdown = .notCalled) :
    Open s.call.pool ∧ s.sent.length = s.call.pool.inFlight := by
  obtain ⟨scheduler, call, shutdown, drained, handedIn, sent⟩ := s
  cases hNotCalled
  obtain ⟨hCalls, hOpen, -⟩ := hs.owned
  refine ⟨hOpen, ?_⟩
  have hCounted := hCalls.counted
  simp only [asOwned, sentEntries, collected_client, List.length_map, List.length_nil,
    Nat.zero_add] at hCounted
  exact hCounted

/-- Until the workers are told to stop, a worker has its units in the order of the sends. -/
theorem Inv.inOrder (hs : Inv whole s)
    (hOpen : s.shutdown = .notCalled ∨ ∃ pending, s.shutdown = .draining pending)
    (w : Fin workerCount) :
    idsOf (s.drained ++ s.call.pool.completions) w ++ s.call.pool.backlogIds w =
      PoolClients.sentIds s.sentEntries w := by
  obtain ⟨scheduler, call, shutdown, drained, handedIn, sent⟩ := s
  rcases hOpen with hNotCalled | ⟨pending, hDraining⟩
  · cases hNotCalled
    obtain ⟨hCalls, -, hDrained⟩ := hs.owned
    obtain rfl : drained = [] := hDrained
    have hConserved := hCalls.conserved w
    simp only [asOwned, collected_client] at hConserved
    exact hConserved
  · cases hDraining
    exact OwnedPool.Draining.conserved hs.owned w

/-- Between two calls nothing is still to be sent. -/
theorem Inv.returned (hs : Inv whole s) {result : Except MevError Unit}
    (hPc : s.call.pc = .returned result) :
    result = .ok () ∧ (s.sent.map Prod.snd).Subperm s.handedIn ∧
      (whole → (s.sent.map Prod.snd).Perm s.handedIn) := by
  obtain ⟨left, hRest, hSubperm, hPerm⟩ := hs.accepted
  rw [Rest, hPc] at hRest
  obtain ⟨hOk, rfl⟩ := hRest
  cases hOk
  rw [List.append_nil] at hSubperm hPerm
  exact ⟨rfl, hSubperm, hPerm⟩

theorem begin_inv (hCount : 1 ≤ workerCount) (hs : Inv whole s)
    (hNotCalled : s.shutdown = .notCalled) {result : Except MevError Unit}
    (hPc : s.call.pc = .returned result) {bundles bundleValues : List Bundle}
    {looseTxs txValues : List Transaction} (hBundles : IsValues (bundleMap bundles) bundleValues)
    (hTxs : IsValues (txMap looseTxs) txValues)
    (hSmall : whole → bundles.length + looseTxs.length ≤ 2000 ∧ (bundles.map Bundle.id).Nodup ∧
      (looseTxs.map Transaction.signature).Nodup) :
    Inv whole (s.begin heap bundles looseTxs bundleValues txValues) := by
  obtain ⟨order, assignments, hSchedule, hOrder, hAll, hAssigned⟩ :=
    schedule_assigned heap hCount hs.threshold bundleValues txValues
  obtain ⟨-, hSubperm, hPerm⟩ := hs.returned hPc
  have hBegin : s.begin heap bundles looseTxs bundleValues txValues =
      { s with
        scheduler := (s.scheduler.schedule heap bundleValues txValues).1
        call := ⟨.dispatching assignments ⟨bundleMap bundles, txMap looseTxs⟩, s.call.pool⟩
        handedIn := s.handedIn ++ batchUnits bundles looseTxs } := by
    rw [begin, processBatch_of_schedule hSchedule]
  rw [hBegin]
  refine ⟨?_, fun hCalled => absurd hNotCalled hCalled, ?_, planOf order assignments,
    rest_of_assigned hBundles hTxs hOrder hAssigned _, ?_, ?_⟩
  · have hOwned := hs.owned
    rw [asOwned, hPc] at hOwned
    exact hOwned
  · exact AdaptiveScheduler.schedule_threshold.trans hs.threshold
  · rw [List.map_append, planOf_map_snd hAssigned]
    exact hSubperm.append (hOrder.trans (batchUnits_values_subperm hBundles hTxs))
  · intro hWhole
    obtain ⟨hSize, hIds, hSignatures⟩ := hSmall hWhole
    have hValues := batchUnits_values_perm hIds hSignatures hBundles hTxs
    have hLe : (batchUnits bundleValues txValues).length ≤ 2000 := by
      rw [hValues.length_eq, length_batchUnits]
      exact hSize
    rw [List.map_append, planOf_map_snd hAssigned]
    exact (hPerm hWhole).append ((hAll hLe).trans hValues)

theorem caller_inv {call : TpuRun workerCount} (hs : Inv whole s)
    (hSize : s.handedIn.length + 1 < UInt64.size) (h : s.call.callerStep = some call) :
    Inv whole { s with call, sent := s.sent ++ s.call.sends .caller } := by
  have hNotCalled : s.shutdown = .notCalled := by
    by_contra hCalled
    obtain ⟨result, hPc⟩ := hs.ended hCalled
    rw [TpuRun.callerStep, hPc] at h
    cases h
  obtain ⟨hOpen, hFlight⟩ := hs.inFlight hNotCalled
  obtain ⟨left, hRest, hSubperm, hPerm⟩ := hs.accepted
  have hStep : s.call.step .caller = some call := h
  obtain ⟨rest, rfl, hLeft⟩ := step_rest hOpen hRest hStep
  rw [← List.append_assoc] at hSubperm hPerm
  have hRoom : s.call.pool.inFlight + (s.call.sends .caller).length + 1 < UInt64.size := by
    have hLe := hSubperm.length_le
    simp only [List.length_map, List.length_append] at hLe
    omega
  refine ⟨?_, fun hCalled => absurd hNotCalled hCalled, hs.threshold, rest, hLeft, hSubperm, hPerm⟩
  rcases asOwned_caller hNotCalled hOpen hRoom h with hSame | ⟨act, hUnits, hStep⟩
  · rw [hSame]
    exact hs.owned
  · exact OwnedPool.step_inv hs.owned hUnits hStep

/-- A step of the shutdown. -/
theorem Inv.withOwned {owned : OwnedPool workerCount} {act : OwnedPool.Act workerCount}
    (hs : Inv whole s) (hUnits : ¬ act.SendsShutdown) (h : s.asOwned.step act = some owned)
    (hOwned : (s.withOwned owned).asOwned = owned)
    (hEnded : ∃ result, s.call.pc = .returned result) : Inv whole (s.withOwned owned) where
  owned := by
    rw [hOwned]
    exact OwnedPool.step_inv hs.owned hUnits h
  ended _ := hEnded
  threshold := hs.threshold
  accepted := hs.accepted

theorem step_inv (hCount : 1 ≤ workerCount) (hs : Inv whole s) (hSmall : whole → act.IsSmall)
    (h : step heap s act = some s') (hSize : s.handedIn.length + 1 < UInt64.size) :
    Inv whole s' := by
  cases act with
  | processBatch bundles looseTxs bundleValues txValues =>
    rw [step] at h
    split at h
    · rename_i hNotCalled hPc
      split at h
      · rename_i hValues
        cases h
        exact begin_inv hCount hs hNotCalled hPc hValues.1 hValues.2 hSmall
      · cases h
    · cases h
  | caller =>
    obtain ⟨call, hCall, rfl⟩ := Option.map_eq_some_iff.mp h
    exact caller_inv hs hSize hCall
  | work w =>
    obtain ⟨pool, hWork, rfl⟩ := Option.map_eq_some_iff.mp h
    exact ⟨OwnedPool.work_inv hs.owned hWork, hs.ended, hs.threshold, hs.accepted⟩
  | shutdown =>
    rw [step] at h
    split at h
    · rename_i result hPc
      obtain ⟨owned, hOwned, rfl⟩ := Option.map_eq_some_iff.mp h
      exact hs.withOwned id hOwned (shutdown_withOwned hOwned) ⟨result, hPc⟩
    · cases h
  | proceed =>
    obtain ⟨owned, hOwned, rfl⟩ := Option.map_eq_some_iff.mp h
    have hCalled : s.shutdown ≠ .notCalled := by
      intro hNotCalled
      rw [OwnedPool.proceed, show s.asOwned.pc = .notCalled from hNotCalled] at hOwned
      cases hOwned
    have hStep : s.asOwned.step .proceed = some owned := hOwned
    exact hs.withOwned id hStep (proceed_withOwned hOwned) (hs.ended hCalled)

theorem handedIn_step_le (h : step heap s act = some s') :
    s.handedIn.length ≤ s'.handedIn.length := by
  cases act with
  | processBatch bundles looseTxs bundleValues txValues =>
    rw [step] at h
    split at h
    · split at h
      · cases h
        rw [begin]
        split
        · rw [List.length_append]
          exact Nat.le_add_right _ _
        · exact le_rfl
      · cases h
    · cases h
  | shutdown =>
    rw [step] at h
    split at h
    · obtain ⟨owned, -, rfl⟩ := Option.map_eq_some_iff.mp h
      exact le_rfl
    · cases h
  | _ =>
    obtain ⟨_, -, rfl⟩ := Option.map_eq_some_iff.mp h
    exact le_rfl

theorem run_inv (hCount : 1 ≤ workerCount) {acts : List (Act workerCount)}
    (hRun : run (step heap) (new workerCount) acts = some s)
    (hSize : s.handedIn.length + 1 < UInt64.size) : Inv (∀ act ∈ acts, act.IsSmall) s := by
  have hBounded : s.handedIn.length + 1 < UInt64.size → Inv (∀ act ∈ acts, act.IsSmall) s := by
    refine invariant_along
      (I := fun t => t.handedIn.length + 1 < UInt64.size → Inv (∀ act ∈ acts, act.IsSmall) t)
      (P := fun _ act => (∀ act ∈ acts, act.IsSmall) → act.IsSmall) ?_ hRun
      (Along.of_forall fun act hAct hWhole => hWhole act hAct) fun _ => new_inv _
    intro t act t' ht hSmall hStep hLt
    have hLe := handedIn_step_le hStep
    have hBefore : t.handedIn.length + 1 < UInt64.size := by omega
    exact step_inv hCount (ht hBefore) hSmall hStep hBefore
  exact hBounded hSize

/-! ## The calls end -/

/-- The step is one of the call in progress. -/
def Act.isCaller : Act workerCount → Bool
  | .caller => true
  | _ => false

/-- The step begins a call. -/
def Act.isBatch : Act workerCount → Bool
  | .processBatch _ _ _ _ => true
  | _ => false

/-- Only the steps of a call use up what it has left. -/
theorem stepsLeft_step (hAct : act.isBatch = false) (h : step heap s act = some s') :
    s'.call.pc.stepsLeft + (if act.isCaller then 1 else 0) ≤ s.call.pc.stepsLeft := by
  cases act with
  | processBatch => cases hAct
  | caller =>
    obtain ⟨call, hCall, rfl⟩ := Option.map_eq_some_iff.mp h
    exact callerRule_stepsLeft (callerRule_of_step hCall)
  | shutdown =>
    rw [step] at h
    split at h
    · obtain ⟨owned, -, rfl⟩ := Option.map_eq_some_iff.mp h
      exact le_rfl
    · cases h
  | _ =>
    obtain ⟨_, -, rfl⟩ := Option.map_eq_some_iff.mp h
    exact le_rfl

/-- The shutdown is called, and no other call is in progress. -/
def Ending (s : TpuSession workerCount) : Prop :=
  s.shutdown ≠ .notCalled ∧ ∃ result, s.call.pc = .returned result

/-- From then on the steps are those of the pool. -/
theorem Ending.step (hs : Ending s) (h : step heap s act = some s') :
    Ending s' ∧ s'.asOwned.effort < s.asOwned.effort := by
  obtain ⟨hCalled, result, hPc⟩ := hs
  have hOwned : ∃ act : OwnedPool.Act workerCount, s.asOwned.step act = some s'.asOwned ∧
      s'.call.pc = s.call.pc := by
    cases act with
    | processBatch =>
      rw [TpuSession.step] at h
      split at h
      · rename_i hNotCalled _
        exact absurd hNotCalled hCalled
      · cases h
    | caller =>
      rw [TpuSession.step, TpuRun.callerStep, hPc] at h
      cases h
    | work w =>
      obtain ⟨pool, hWork, rfl⟩ := Option.map_eq_some_iff.mp h
      refine ⟨.work w, ?_, rfl⟩
      rw [OwnedPool.step, show s.asOwned.calls.pool = s.call.pool from rfl, hWork]
      rfl
    | shutdown =>
      rw [TpuSession.step, hPc] at h
      obtain ⟨owned, hStep, rfl⟩ := Option.map_eq_some_iff.mp h
      refine ⟨.shutdown, ?_, rfl⟩
      rw [shutdown_withOwned hStep]
      exact hStep
    | proceed =>
      obtain ⟨owned, hStep, rfl⟩ := Option.map_eq_some_iff.mp h
      refine ⟨.proceed, ?_, rfl⟩
      rw [proceed_withOwned hStep]
      exact hStep
  obtain ⟨act, hStep, hSame⟩ := hOwned
  obtain ⟨hNext, hLt⟩ := OwnedPool.effort_lt hCalled hStep
  exact ⟨⟨hNext, result, hSame.trans hPc⟩, hLt⟩

theorem Ending.length_le (hs : Ending s) {acts : List (Act workerCount)}
    {t : TpuSession workerCount} (hRun : run (TpuSession.step heap) s acts = some t) :
    acts.length ≤ s.asOwned.effort := by
  have hLe := countP_add_le_of_lowers (I := Ending) (A := fun _ => True) (fun _ => true)
    (fun x => x.asOwned.effort) (fun _ _ _ hx _ hStep => (hx.step hStep).1)
    (fun _ _ _ hx _ hStep => (hx.step hStep).2) hRun hs fun _ _ => trivial
  rw [List.countP_true] at hLe
  omega

/-- What the pool can do in its shutdown the pipeline can do. -/
theorem Ending.exists_step (hs : Ending s) {act : OwnedPool.Act workerCount}
    {owned : OwnedPool workerCount} (h : s.asOwned.step act = some owned) :
    ∃ act s', TpuSession.step heap s act = some s' := by
  obtain ⟨hCalled, -⟩ := hs
  cases act with
  | call act =>
    rw [OwnedPool.step] at h
    split at h
    · rename_i hNotCalled
      exact absurd hNotCalled hCalled
    · cases h
  | work w =>
    obtain ⟨pool, hWork, -⟩ := Option.map_eq_some_iff.mp h
    exact ⟨.work w, _, Option.map_eq_some_iff.mpr ⟨pool, hWork, rfl⟩⟩
  | shutdown =>
    rw [OwnedPool.step] at h
    split at h
    · rename_i hNotCalled _
      exact absurd hNotCalled hCalled
    · cases h
  | proceed => exact ⟨.proceed, _, Option.map_eq_some_iff.mpr ⟨owned, h, rfl⟩⟩

/-! ## Main result -/

/-- What has become of the units that were handed in. `whole` says that all batches are small.
* `returned`: a call returns `Ok`, and then the units that were sent so far are some of those that
  were handed in, each sent once; of small batches, all of them.
* `inOrder`: before the workers are told to stop, what is received, what is in the channel and what
  a worker has left is together what was sent to this worker, in this order.
* `completed`: from then on there is one completion for each unit that was sent, no unit is left
  in a queue and no account is locked.
* `answered`: of small batches each unit that was handed in has its completion.
* `goesOn`, `called`: a call waits for nothing and ends.
* `dismissed`: when the shutdown returns a worker may still have its `Shutdown` to read, and
  nothing else.
* `bounded`, `progress`: the shutdown returns and all workers stop, after a bounded number of
  steps in any order. -/
structure Delivered (heap : PrioGraphScheduler.BinaryHeap) (whole : Prop)
    (s : TpuSession workerCount) : Prop where
  returned : ∀ result, s.call.pc = .returned result → result = .ok () ∧
    (s.sent.map Prod.snd).Subperm s.handedIn ∧ (whole → (s.sent.map Prod.snd).Perm s.handedIn)
  inOrder : (s.shutdown = .notCalled ∨ ∃ pending, s.shutdown = .draining pending) →
    ∀ w : Fin workerCount, idsOf (s.drained ++ s.call.pool.completions) w ++
      s.call.pool.backlogIds w = PoolClients.sentIds s.sentEntries w
  completed : s.shutdown ≠ .notCalled → (∀ pending, s.shutdown ≠ .draining pending) →
    (s.drained.map WorkCompletion.entry).Perm s.sentEntries ∧ s.call.pool.inFlight = 0 ∧
      s.call.pool.globalLocks = ∅
  answered : s.shutdown ≠ .notCalled → (∀ pending, s.shutdown ≠ .draining pending) → whole →
    (s.drained.map WorkCompletion.unitId).Perm (s.handedIn.map SchedulableUnit.unitId)
  goesOn : (∀ result, s.call.pc ≠ .returned result) → ∃ s', step heap s .caller = some s'
  called : ∀ acts t, run (step heap) s acts = some t → (∀ act ∈ acts, act.isBatch = false) →
    acts.countP Act.isCaller ≤ s.call.pc.stepsLeft
  progress : s.shutdown ≠ .notCalled →
    (s.shutdown = .returned ∧ ∀ w, s.call.pool.workers w = ⟨[], .stopped⟩) ∨
      ∃ act s', step heap s act = some s'
  bounded : s.shutdown ≠ .notCalled → ∀ acts t, run (step heap) s acts = some t →
    acts.length ≤ s.asOwned.effort
  dismissed : s.shutdown = .returned → ∀ w, OwnedPool.Dismissed (s.call.pool.workers w)

/-- Whatever batches the owner hands in, fewer than `2 ^ 64 - 1` units in all. -/
theorem reachable_delivered (hCount : 1 ≤ workerCount) {acts : List (Act workerCount)}
    (hRun : run (step heap) (new workerCount) acts = some s)
    (hSize : s.handedIn.length + 1 < UInt64.size) :
    Delivered heap (∀ act ∈ acts, act.IsSmall) s := by
  have hs : Inv (∀ act ∈ acts, act.IsSmall) s := run_inv hCount hRun hSize
  have hShutsDown := hs.owned.shutsDown
  have hEnding : s.shutdown ≠ .notCalled → Ending s := fun hCalled => ⟨hCalled, hs.ended hCalled⟩
  refine ⟨fun result hPc => hs.returned hPc, hs.inOrder, hShutsDown.completed, ?_, ?_, ?_, ?_,
    fun hCalled acts t h => (hEnding hCalled).length_le h, hShutsDown.dismissed⟩
  · intro hCalled hDrained hWhole
    obtain ⟨result, hPc⟩ := hs.ended hCalled
    have hSent := ((hs.returned hPc).2.2 hWhole).map SchedulableUnit.unitId
    have hReceived := (hShutsDown.completed hCalled hDrained).1.map Prod.snd
    rw [List.map_map] at hReceived
    refine hReceived.trans ?_
    rw [List.map_map] at hSent
    rw [show s.asOwned.calls.sent 0 = s.sentEntries from rfl, sentEntries, List.map_map]
    exact hSent
  · intro hCall
    cases hStep : s.call.callerStep with
    | none =>
      obtain ⟨result, hPc⟩ := returned_of_blocked hStep
      exact absurd hPc (hCall result)
    | some call => exact ⟨_, Option.map_eq_some_iff.mpr ⟨call, hStep, rfl⟩⟩
  · intro acts t h hActs
    have hLe := countP_add_le_of_lowers (I := fun _ => True) (A := fun act => act.isBatch = false)
      Act.isCaller (fun x : TpuSession workerCount => x.call.pc.stepsLeft)
      (fun _ _ _ _ _ _ => trivial) (fun _ _ _ _ hAct hStep => stepsLeft_step hAct hStep) h trivial
      hActs
    omega
  · intro hCalled
    rcases hShutsDown.progress hCalled with hDone | ⟨act, owned, hStep⟩
    · exact Or.inl hDone
    · exact Or.inr ((hEnding hCalled).exists_step hStep)

/-- A bundle of two transactions and a loose transaction with a common account, then, while the
first worker executes the bundle, a batch of two transactions, then the shutdown. The second
worker does not get to read its `Shutdown`. -/
def twoBatches (a b : Fin 2) : List (Act 2) :=
  let sharing id := Transaction.new id [AccountMeta.new (Pubkey.filled 1) true] 1 1
  let other id := Transaction.new id [] 1 1
  let bundle := Bundle.new 7 [other "first", sharing "second"] 5 "searcher"
  List.flatten [
    [.processBatch [bundle] [sharing "loose"] [bundle] [sharing "loose"]],
    List.replicate 5 .caller, [.work a, .work a],
    [.processBatch [] [other "x", other "y"] [] [other "y", other "x"]],
    List.replicate 5 .caller, List.replicate 3 (.work b), [.shutdown, .proceed],
    List.replicate 14 (.work a), List.replicate 8 .proceed, [.work a, .work a]]

theorem reachable_delivered_twoBatches :
    let heap : PrioGraphScheduler.BinaryHeap := fun _ => Foundation.PriorityQueue.MaxHeap.ofList _
    ∃ s, run (step heap) (new 2) (twoBatches 0 1) = some s ∧ s.shutdown = .returned ∧
      s.drained = [⟨1, "loose", false, some "Lock acquisition failed"⟩, ⟨0, "7", true, none⟩,
        ⟨0, "x", true, none⟩, ⟨0, "y", true, none⟩] ∧
      (s.call.pool.workers 0).queue = [] ∧ (s.call.pool.workers 1).queue = [.shutdown] ∧
      Delivered heap (∀ act ∈ twoBatches 0 1, act.IsSmall) s := by
  intro heap
  have hSeen : (run (step fun _ => Foundation.PriorityQueue.MaxHeap.ofList _) (new 2)
      (twoBatches 0 1)).map (fun s =>
        (s.shutdown, s.drained, (fun w => (s.call.pool.workers w).queue), s.handedIn.length)) =
      some (.returned, [⟨1, "loose", false, some "Lock acquisition failed"⟩,
        ⟨0, "7", true, none⟩, ⟨0, "x", true, none⟩, ⟨0, "y", true, none⟩],
        ![[], [.shutdown]], 4) := by
    decide +kernel
  obtain ⟨s, hRun, hState⟩ := Option.map_eq_some_iff.mp hSeen
  simp only [Prod.mk.injEq] at hState
  obtain ⟨hReturned, hDrained, hQueues, hUnits⟩ := hState
  have hSize : s.handedIn.length + 1 < UInt64.size := by
    rw [hUnits]
    decide
  exact ⟨s, hRun, hReturned, hDrained, congrFun hQueues 0, congrFun hQueues 1,
    reachable_delivered (by decide) hRun hSize⟩

end TpuSession

end Blunder.TpuPipeline
