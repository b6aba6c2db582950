import Blunder.Engine.AsyncWorker
import Blunder.Foundation.Footprint

/-!
# What the locks of the pool are for

The workers sleep where a transaction would be executed. Here the execution of a
transaction is any effect on the accounts it names, and happens when its sleep ends. A
ledger is a pool with the state of the accounts, the units in the order in which they
gave their locks back, and every completion that was ever sent.

* `Ledger.step_inv`: the accounts are those of a serial execution of the finished units, apart
  from what the executing units have done so far to their own accounts.
* `Ledger.reachable_serializable`: what this means for every reachable ledger.
-/

namespace Blunder

open Foundation.LockTable Foundation.Transition Foundation.Footprint

/-- The transactions of a unit, in the order of their execution. -/
def SchedulableUnit.transactions : SchedulableUnit → List Transaction
  | .bundle b => b.transactions
  | .transaction tx => [tx]

theorem SchedulableUnit.length_transactions (unit : SchedulableUnit) :
    unit.transactions.length = AsyncWorker.sleeps unit := by
  cases unit <;> rfl

/-- The accounts of a unit are those of its transactions. -/
theorem SchedulableUnit.subset_allAccounts {unit : SchedulableUnit} {tx : Transaction}
    (hTx : tx ∈ unit.transactions) : tx.allAccounts ⊆ unit.allAccounts := by
  intro acc hAcc
  cases unit with
  | bundle bundle => exact Bundle.mem_allAccounts.mpr ⟨tx, hTx, hAcc⟩
  | transaction own =>
    obtain rfl := List.mem_singleton.mp hTx
    exact hAcc

/-- What the execution of a transaction does to its accounts. -/
structure Execution (V : Type) where
  effect : Transaction → (Pubkey → V) → Pubkey → V
  actsOn : ∀ tx, ActsOn (effect tx) tx.allAccounts

namespace Execution

variable {V : Type} (e : Execution V)

/-- Transactions one after another. -/
def runAll (txs : List Transaction) (m : Pubkey → V) : Pubkey → V :=
  txs.foldl (fun m tx => e.effect tx m) m

/-- Units one after another. -/
def runUnits (units : List SchedulableUnit) (m : Pubkey → V) : Pubkey → V :=
  units.foldl (fun m unit => e.runAll unit.transactions m) m

theorem runAll_concat (txs : List Transaction) (tx : Transaction) :
    e.runAll (txs ++ [tx]) = fun m => e.effect tx (e.runAll txs m) := by
  funext m
  rw [runAll, List.foldl_append]
  rfl

theorem runUnits_concat (units : List SchedulableUnit) (unit : SchedulableUnit)
    (m : Pubkey → V) :
    e.runUnits (units ++ [unit]) m = e.runAll unit.transactions (e.runUnits units m) := by
  rw [runUnits, List.foldl_append]
  rfl

/-- What the last step of a worker has executed: the transaction whose sleep has ended. -/
def stepEffect : Phase → (Pubkey → V) → Pubkey → V
  | .executing unit (n + 1), m =>
    match unit.transactions[AsyncWorker.sleeps unit - (n + 1)]? with
    | some tx => e.effect tx m
    | none => m
  | _, m => m

/-- What a worker has done so far for the unit that it executes. -/
def done : Phase → (Pubkey → V) → Pubkey → V
  | .executing unit n, m => e.runAll (unit.transactions.take (AsyncWorker.sleeps unit - n)) m
  | _, m => m

end Execution

namespace Phase

/-- The unit that gives its locks back in the next step. -/
def releasing : Phase → Option SchedulableUnit
  | .executing unit 0 => some unit
  | _ => none

/-- The id of a unit that has succeeded, until its completion is sent. -/
def succeeded : Phase → List String
  | .completing unit (.ok ()) => [unit.unitId]
  | _ => []

/-- A unit has at most as many sleeps to come as it has transactions. -/
def Bounded : Phase → Prop
  | .executing unit n => n ≤ AsyncWorker.sleeps unit
  | _ => True

end Phase

theorem AsyncWorker.Step.bounded {id : ℕ} {worker worker' : AsyncWorker}
    {locked locked' : Finset Pubkey} {completion : Option WorkCompletion}
    (hStep : AsyncWorker.Step id worker locked worker' locked' completion)
    (hBounded : worker.phase.Bounded) : worker'.phase.Bounded := by
  cases hStep with
  | acquire => exact le_rfl
  | sleep => exact Nat.le_of_succ_le hBounded
  | _ => trivial

theorem AsyncWorkerPool.step_bounded {workerCount : ℕ} {pool pool' : AsyncWorkerPool workerCount}
    {act : Act workerCount} (hBounded : ∀ w, (pool.workers w).phase.Bounded)
    (h : pool.step act = some pool') : ∀ w, (pool'.workers w).phase.Bounded := by
  intro v
  by_cases hWork : act = .work v
  · subst hWork
    obtain ⟨worker, locked, completion, hStep, rfl⟩ := workStep_cases h
    simp only [Function.update_self]
    exact hStep.bounded (hBounded v)
  · rw [phase_of_ne hWork h]
    exact hBounded v

/-- The completion that the next step of a worker sends. -/
def AsyncWorker.completion (id : ℕ) : Phase → Option WorkCompletion
  | .completing unit result => some (.of id unit result)
  | _ => none

/-- What each worker has done so far. -/
def AsyncWorkerPool.done {workerCount : ℕ} {V : Type} (pool : AsyncWorkerPool workerCount)
    (e : Execution V) (w : Fin workerCount) : (Pubkey → V) → Pubkey → V :=
  e.done (pool.workers w).phase

theorem AsyncWorkerPool.done_update {workerCount : ℕ} {V : Type} {e : Execution V}
    {pool : AsyncWorkerPool workerCount} {w : Fin workerCount} {worker : AsyncWorker}
    {locked : Finset Pubkey} {completions : List WorkCompletion} :
    { pool with
      workers := Function.update pool.workers w worker
      globalLocks := locked
      completions }.done e = Function.update (pool.done e) w (e.done worker.phase) := by
  funext v
  by_cases hv : v = w
  · subst hv
    simp [done]
  · simp [done, hv]

structure Ledger (workerCount : ℕ) (V : Type) where
  pool : AsyncWorkerPool workerCount
  memory : Pubkey → V
  committed : List (Fin workerCount × SchedulableUnit)
  sent : List WorkCompletion

namespace Ledger

variable {workerCount : ℕ} {V : Type}

def start (workerCount : ℕ) (m : Pubkey → V) : Ledger workerCount V :=
  ⟨AsyncWorkerPool.spawn workerCount, m, [], []⟩

def step (e : Execution V) (s : Ledger workerCount V) :
    AsyncWorkerPool.Act workerCount → Option (Ledger workerCount V)
  | .work w =>
    let phase := (s.pool.workers w).phase
    (s.pool.workStep w).map fun pool =>
      { pool
        memory := e.stepEffect phase s.memory
        committed := s.committed ++ phase.releasing.toList.map fun unit => (w, unit)
        sent := s.sent ++ (AsyncWorker.completion w phase).toList }
  | act => (s.pool.step act).map fun pool => { s with pool }

/-- The finished units one after another, in the order of their releases. -/
def serial (s : Ledger workerCount V) (e : Execution V) (m : Pubkey → V) : Pubkey → V :=
  e.runUnits (s.committed.map Prod.snd) m

/-- The ids of the units that a worker has finished. -/
def committedBy (s : Ledger workerCount V) (w : Fin workerCount) : List String :=
  (s.committed.filter fun c => decide (c.1 = w)).map fun c => c.2.unitId

/-- The ids in the successful completions of a worker. -/
def reportedBy (s : Ledger workerCount V) (w : Fin workerCount) : List String :=
  (s.sent.filter fun c => decide (c.workerId = w.val) && c.success).map WorkCompletion.unitId

/-! ## The invariant -/

structure Inv (e : Execution V) (m : Pubkey → V) (s : Ledger workerCount V) : Prop where
  pool : s.pool.Inv
  tracks : Tracks s.memory (s.serial e m) s.pool.held (s.pool.done e)
  bounded : ∀ w, (s.pool.workers w).phase.Bounded
  reported : ∀ w, s.committedBy w = s.reportedBy w ++ (s.pool.workers w).phase.succeeded

theorem start_inv (e : Execution V) (m : Pubkey → V) : Inv e m (start workerCount m) where
  pool := AsyncWorkerPool.spawn_inv
  tracks := Tracks.start m
  bounded _ := trivial
  reported _ := rfl

section Steps

variable {e : Execution V} {m : Pubkey → V} {s s' : Ledger workerCount V}
  {act : AsyncWorkerPool.Act workerCount}

theorem step_client (hClient : ∀ w, act ≠ .work w) :
    s.step e act = (s.pool.step act).map fun pool => { s with pool } := by
  cases act with
  | work w => exact absurd rfl (hClient w)
  | _ => rfl

theorem step_cases (h : s.step e act = some s') :
    (∃ w pool, act = .work w ∧ s.pool.workStep w = some pool ∧
      s' = { pool
             memory := e.stepEffect (s.pool.workers w).phase s.memory
             committed := s.committed ++
               (s.pool.workers w).phase.releasing.toList.map fun unit => (w, unit)
             sent := s.sent ++ (AsyncWorker.completion w (s.pool.workers w).phase).toList }) ∨
      ∃ pool, (∀ w, act ≠ .work w) ∧ s.pool.step act = some pool ∧ s' = { s with pool } := by
  by_cases hWork : ∃ w, act = .work w
  · obtain ⟨w, rfl⟩ := hWork
    obtain ⟨pool, hPool, rfl⟩ := Option.map_eq_some_iff.mp h
    exact Or.inl ⟨w, pool, rfl, hPool, rfl⟩
  · have hClient : ∀ w, act ≠ .work w := fun w hw => hWork ⟨w, hw⟩
    rw [step_client hClient] at h
    obtain ⟨pool, hPool, rfl⟩ := Option.map_eq_some_iff.mp h
    exact Or.inr ⟨pool, hClient, hPool, rfl⟩

/-- The pool does not depend on what is executed. -/
theorem pool_step (h : s.step e act = some s') : s.pool.step act = some s'.pool := by
  rcases step_cases h with ⟨w, pool, rfl, hPool, rfl⟩ | ⟨pool, -, hPool, rfl⟩
  · exact hPool
  · exact hPool

/-- The accounts of the executing units and of nobody else change. -/
theorem tracks_work {w : Fin workerCount} {worker : AsyncWorker} {locked : Finset Pubkey}
    {completion : Option WorkCompletion} (hs : Inv e m s)
    (hStep : AsyncWorker.Step w (s.pool.workers w) s.pool.globalLocks worker locked completion) :
    Tracks (e.stepEffect (s.pool.workers w).phase s.memory)
      (e.runUnits ((s.committed ++ (s.pool.workers w).phase.releasing.toList.map
        fun unit => (w, unit)).map Prod.snd) m)
      (Function.update s.pool.held w worker.phase.held)
      (Function.update (s.pool.done e) w (e.done worker.phase)) := by
  have hHeld : s.pool.held w = (s.pool.workers w).phase.held := rfl
  have hDone : s.pool.done e w = e.done (s.pool.workers w).phase := rfl
  have hBounded := hs.bounded w
  have hTracks := hs.tracks
  rw [serial] at hTracks
  -- A rule that executes nothing leaves everything as it is.
  have hQuiet : worker.phase.held = s.pool.held w → e.done worker.phase = s.pool.done e w →
      Tracks s.memory (e.runUnits (s.committed.map Prod.snd) m)
        (Function.update s.pool.held w worker.phase.held)
        (Function.update (s.pool.done e) w (e.done worker.phase)) := by
    intro hHeld' hDone'
    rw [hHeld', hDone', Function.update_eq_self, Function.update_eq_self]
    exact hTracks
  generalize s.pool.workers w = worker₀ at hStep hHeld hDone hBounded
  cases hStep with
  | @acquire unit queue _ hFree =>
    have hDisjoint : ∀ v, Disjoint unit.allAccounts (s.pool.held v) := by
      intro v
      have hLocks := hs.pool.family_eq_biUnion
      rw [hLocks, Finset.disjoint_biUnion_right] at hFree
      exact hFree v (Finset.mem_univ v)
    have hStart : e.done (.executing unit (AsyncWorker.sleeps unit)) = fun m => m := by
      funext m
      rw [Execution.done, Nat.sub_self, List.take_zero]
      rfl
    simp only [Phase.releasing, Option.toList_none, List.map_nil, List.append_nil]
    rw [hStart]
    exact hTracks.acquire hHeld hDisjoint
  | @sleep unit n queue =>
    have hLt : AsyncWorker.sleeps unit - (n + 1) < unit.transactions.length := by
      have hLe : n + 1 ≤ AsyncWorker.sleeps unit := hBounded
      rw [unit.length_transactions]
      omega
    have hEffect : e.stepEffect (.executing unit (n + 1)) =
        e.effect (unit.transactions.get ⟨_, hLt⟩) := by
      funext m
      rw [Execution.stepEffect, List.getElem?_eq_getElem hLt]
      rfl
    have hNext : e.done (.executing unit n) = fun m =>
        e.effect (unit.transactions.get ⟨_, hLt⟩) (e.done (.executing unit (n + 1)) m) := by
      have hLe : n + 1 ≤ AsyncWorker.sleeps unit := hBounded
      have hCount : AsyncWorker.sleeps unit - n = AsyncWorker.sleeps unit - (n + 1) + 1 := by omega
      funext m
      rw [Execution.done, hCount, List.take_succ_eq_append_getElem hLt, e.runAll_concat]
      rfl
    have hActs : ActsOn (e.effect (unit.transactions.get ⟨_, hLt⟩)) (s.pool.held w) := by
      rw [hHeld]
      exact (e.actsOn _).mono (SchedulableUnit.subset_allAccounts (List.get_mem _ _))
    have hActed := hTracks.act hActs
    rw [hDone] at hActed
    simp only [Phase.releasing, Option.toList_none, List.map_nil, List.append_nil]
    rw [hEffect, hNext, show Phase.held (.executing unit n) = s.pool.held w from hHeld.symm,
      Function.update_eq_self]
    exact hActed
  | @release unit queue =>
    have hAll : e.done (.executing unit 0) = e.runAll unit.transactions := by
      funext m
      rw [Execution.done, Nat.sub_zero, ← unit.length_transactions, List.take_length]
    have hReleased := hTracks.release (i := w)
    rw [hDone, hAll] at hReleased
    simp only [Phase.releasing, Option.toList_some, List.map_cons, List.map_nil]
    rw [List.map_append, List.map_singleton, e.runUnits_concat]
    exact hReleased
  | _ =>
    simp only [Phase.releasing, Option.toList_none, List.map_nil, List.append_nil]
    exact hQuiet hHeld.symm hDone.symm

/-- What a step adds is that of its own worker. -/
theorem reported_work {w : Fin workerCount} {worker : AsyncWorker} {locked : Finset Pubkey}
    {completion : Option WorkCompletion} {pool : AsyncWorkerPool workerCount} (hs : Inv e m s)
    (hStep : AsyncWorker.Step w (s.pool.workers w) s.pool.globalLocks worker locked completion)
    (hWorkers : pool.workers = Function.update s.pool.workers w worker) (memory : Pubkey → V) :
    let s' : Ledger workerCount V :=
      { pool
        memory
        committed := s.committed ++
          (s.pool.workers w).phase.releasing.toList.map fun unit => (w, unit)
        sent := s.sent ++ (AsyncWorker.completion w (s.pool.workers w).phase).toList }
    ∀ v, s'.committedBy v = s'.reportedBy v ++ (s'.pool.workers v).phase.succeeded := by
  intro s' v
  have hReported := hs.reported v
  simp only [committedBy, reportedBy] at hReported ⊢
  simp only [s', hWorkers, List.filter_append, List.map_append]
  rw [hReported]
  by_cases hv : v = w
  · subst hv
    rw [Function.update_self]
    generalize s.pool.workers v = worker₀ at hStep
    cases hStep with
    | @complete unit result queue =>
      cases result with
      | ok done =>
        simp [Phase.releasing, Phase.succeeded, AsyncWorker.completion, WorkCompletion.of]
      | error error =>
        simp [Phase.releasing, Phase.succeeded, AsyncWorker.completion, WorkCompletion.of]
    | _ => simp [Phase.releasing, Phase.succeeded, AsyncWorker.completion]
  · rw [Function.update_of_ne hv]
    have hOther : ∀ c ∈ (AsyncWorker.completion w (s.pool.workers w).phase).toList,
        c.workerId = w.val := by
      intro c hc
      cases hPhase : (s.pool.workers w).phase with
      | completing unit result =>
        rw [hPhase] at hc
        obtain rfl := List.mem_singleton.mp hc
        cases result <;> rfl
      | _ =>
        rw [hPhase] at hc
        cases hc
    have hCommitted : ((s.pool.workers w).phase.releasing.toList.map
        fun unit => (w, unit)).filter (fun c => decide (c.1 = v)) = [] := by
      apply List.filter_eq_nil_iff.mpr
      intro c hc
      obtain ⟨unit, -, rfl⟩ := List.mem_map.mp hc
      simpa using Ne.symm hv
    have hSent : (AsyncWorker.completion w (s.pool.workers w).phase).toList.filter
        (fun c => decide (c.workerId = v.val) && c.success) = [] := by
      apply List.filter_eq_nil_iff.mpr
      intro c hc
      rw [hOther c hc]
      have hNe : w.val ≠ v.val := fun hEq => hv (Fin.ext hEq.symm)
      simp [hNe]
    rw [hCommitted, hSent]
    simp

theorem step_inv (hs : Inv e m s) (h : s.step e act = some s') : Inv e m s' := by
  have hPool := AsyncWorkerPool.step_inv hs.pool (pool_step h)
  have hBounded := AsyncWorkerPool.step_bounded hs.bounded (pool_step h)
  rcases step_cases h with ⟨w, pool, -, hWork, rfl⟩ | ⟨pool, hClient, hPoolStep, rfl⟩
  · obtain ⟨worker, locked, completion, hStep, rfl⟩ := AsyncWorkerPool.workStep_cases hWork
    refine ⟨hPool, ?_, hBounded, reported_work hs hStep rfl _⟩
    change Tracks _ _ (AsyncWorkerPool.held { s.pool with
      workers := Function.update s.pool.workers w worker
      globalLocks := locked
      completions := s.pool.completions ++ completion.toList }) (AsyncWorkerPool.done _ e)
    rw [AsyncWorkerPool.held_update, AsyncWorkerPool.done_update]
    exact tracks_work hs hStep
  · obtain ⟨-, hPhase⟩ := AsyncWorkerPool.client_frame hClient hPoolStep
    have hHeld : pool.held = s.pool.held := funext fun v => congrArg Phase.held (hPhase v)
    have hDone : pool.done e = s.pool.done e := funext fun v => congrArg e.done (hPhase v)
    refine ⟨hPool, ?_, hBounded, ?_⟩
    · change Tracks s.memory (s.serial e m) pool.held (pool.done e)
      rw [hHeld, hDone]
      exact hs.tracks
    · intro v
      change s.committedBy v = s.reportedBy v ++ (pool.workers v).phase.succeeded
      rw [hPhase v]
      exact hs.reported v

end Steps

/-! ## Main result -/

/-- The accounts under any interleaving of the workers.
* `pool`: the pool is one of the runs of the pool; what is executed has no influence on it.
* `free`: an account that is not locked has the value that the finished units give it, executed
  one after another in the order of their releases.
* `executing`: the accounts of an executing unit have the values that these units and then its
  own executed transactions give them.
* `idle`: when no unit is executing, the accounts are those of that serial execution.
* `reported`: the finished units of a worker are those that its completions report as
  successful, and the one whose completion is about to be sent. -/
structure Serializable (e : Execution V) (m : Pubkey → V) (s : Ledger workerCount V) : Prop where
  pool : Reachable AsyncWorkerPool.step (AsyncWorkerPool.spawn workerCount) s.pool
  free : ∀ acc ∉ s.pool.globalLocks, s.memory acc = s.serial e m acc
  executing : ∀ w unit n, (s.pool.workers w).phase = .executing unit n →
    ∀ acc ∈ unit.allAccounts, s.memory acc =
      e.runAll (unit.transactions.take (unit.transactions.length - n)) (s.serial e m) acc
  idle : (∀ w unit n, (s.pool.workers w).phase ≠ .executing unit n) → s.memory = s.serial e m
  reported : ∀ w, s.committedBy w = s.reportedBy w ++ (s.pool.workers w).phase.succeeded

/-- Whatever the transactions do to the accounts they name, and however the workers are
interleaved, units take effect one after another, as a whole, and only if they succeed. -/
theorem reachable_serializable {e : Execution V} {m : Pubkey → V} {s : Ledger workerCount V}
    (h : Reachable (step e) (start workerCount m) s) : Serializable e m s := by
  have hs : Inv e m s := h.invariant (fun _ _ _ hs hStep => step_inv hs hStep) (start_inv e m)
  refine ⟨?_, ?_, ?_, ?_, hs.reported⟩
  · exact h.simulate pool fun _ _ _ hStep => Reachable.single (pool_step hStep)
  · intro acc hAcc
    apply hs.tracks.rest acc
    intro w hHeld
    exact hAcc (hs.pool.family_mem_iff.mpr ⟨w, hHeld⟩)
  · intro w unit n hPhase acc hAcc
    have hHeld : acc ∈ s.pool.held w := by
      rw [AsyncWorkerPool.held, hPhase]
      exact hAcc
    rw [hs.tracks.running w acc hHeld, AsyncWorkerPool.done, hPhase, Execution.done,
      unit.length_transactions]
  · intro hIdle
    exact hs.tracks.eq_of_idle fun w => AsyncWorkerPool.held_eq_empty (hIdle w)

/-- Every transaction counts its executions in its accounts. -/
def counting : Execution ℕ where
  effect tx m acc := if acc ∈ tx.allAccounts then m acc + 1 else m acc
  actsOn tx := by
    constructor
    · intro m acc hAcc
      exact if_neg hAcc
    · intro m m' hSame acc hAcc
      rw [if_pos hAcc, if_pos hAcc, hSame acc hAcc]

/-- While one worker executes a bundle of two, another one executes a transaction and fails
to get an account of the bundle. -/
def bundleBesideTxs (a b : Fin 2) : List (AsyncWorkerPool.Act 2) :=
  let tx (id : String) (n : UInt8) := Transaction.new id [AccountMeta.new (Pubkey.filled n) true] 1 1
  [.send a (.bundle (Bundle.new 7 [tx "a" 1, tx "b" 1] 1 "s")), .send b (.transaction (tx "c" 2)),
    .send b (.transaction (tx "d" 1)), .work a, .work a, .work b, .work b, .work a, .work b,
    .work b, .work b, .work b, .work b, .work b, .work a, .work a, .work a]

theorem reachable_serializable_bundleBesideTxs :
    ∃ s, Reachable (step counting) (start 2 fun _ => 0) s ∧
      s.committed.map (fun c => c.2.unitId) = ["c", "7"] ∧ s.memory (Pubkey.filled 1) = 2 ∧
      Serializable counting (fun _ => 0) s := by
  obtain ⟨s, hRun, hCommitted, hMemory⟩ : ∃ s,
      run (step counting) (start 2 fun _ => 0) (bundleBesideTxs 0 1) = some s ∧
        s.committed.map (fun c => c.2.unitId) = ["c", "7"] ∧ s.memory (Pubkey.filled 1) = 2 :=
    ⟨_, rfl, rfl, rfl⟩
  exact ⟨s, ⟨bundleBesideTxs 0 1, hRun⟩, hCommitted, hMemory,
    reachable_serializable ⟨bundleBesideTxs 0 1, hRun⟩⟩

end Ledger

end Blunder
