import Blunder.Engine.PoolClients
import Mathlib.Algebra.Order.BigOperators.Group.Finset

/-!
# The counter of pending work

The counter, up to the sends not yet counted and the completions not yet uncounted, is
the number of units in flight. Waits that follow one another want no more completions
than there are; a wait that loads the counter while another one still expects
completions may want some of them a second time.

* `Accounted`, `accounted_step`: the ledger, kept by every step that sends nothing behind
  a shutdown and loads nothing while another wait expects completions.
* `sound_of_not_overlaps`: for sends of units only, whatever the clients are.
-/

namespace Blunder

open Foundation.Transition AsyncWorkerPool

/-! ## The ledger of one client -/

namespace ClientPc

/-- Sends that are not counted yet. -/
def counts : ClientPc → ℕ
  | .counting => 1
  | _ => 0

/-- Completions that are received and not uncounted yet. -/
def owes : ClientPc → ℕ
  | .uncounting _ _ => 1
  | _ => 0

/-- Completions that a wait has yet to receive. -/
def wants : ClientPc → ℕ
  | .locking pending => pending
  | .receiving pending completions => pending - completions.length
  | .uncounting pending completions => pending - completions.length
  | _ => 0

end ClientPc

namespace PoolClients

variable {workerCount clientCount : ℕ}

/-! ## The ledger -/

def counting (s : PoolClients workerCount clientCount) : ℕ := ∑ c, (s.clients c).counts

def owing (s : PoolClients workerCount clientCount) : ℕ := ∑ c, (s.clients c).owes

def wanting (s : PoolClients workerCount clientCount) : ℕ := ∑ c, (s.clients c).wants

/-- Nothing has been sent, or there was room for it. -/
structure Accounted (s : PoolClients workerCount clientCount) : Prop where
  room : s.pool.inFlight + s.counting + s.owing = 0 ∨
    s.pool.inFlight + clientCount < UInt64.size
  law : s.pool.pendingWork.toNat + s.counting = s.pool.inFlight + s.owing
  covered : s.wanting + s.owing ≤ s.pool.pendingWork.toNat

section Ledger

variable {s : PoolClients workerCount clientCount} {c : Fin clientCount}

/-- The ledger after one client has moved on, from what changes. -/
theorem Accounted.goto {s' : PoolClients workerCount clientCount} {pc : ClientPc}
    (hs : Accounted s) (hClients : s'.clients = Function.update s.clients c pc)
    (hRoom : s'.pool.inFlight = s.pool.inFlight ∧ pc.counts = (s.clients c).counts ∧
        pc.owes = (s.clients c).owes ∨ s'.pool.inFlight + clientCount < UInt64.size)
    (hLaw : s'.pool.pendingWork.toNat + pc.counts + ((s.clients c).owes + s.pool.inFlight) =
      s.pool.pendingWork.toNat + (s.clients c).counts + (pc.owes + s'.pool.inFlight))
    (hCovered : s.wanting + s.owing + (pc.wants + pc.owes) ≤
      s'.pool.pendingWork.toNat + ((s.clients c).wants + (s.clients c).owes)) :
    Accounted s' := by
  have hCounting : s'.counting + (s.clients c).counts = s.counting + pc.counts := by
    rw [counting, hClients]
    exact sum_update ClientPc.counts s.clients c pc
  have hOwing : s'.owing + (s.clients c).owes = s.owing + pc.owes := by
    rw [owing, hClients]
    exact sum_update ClientPc.owes s.clients c pc
  have hWanting : s'.wanting + (s.clients c).wants = s.wanting + pc.wants := by
    rw [wanting, hClients]
    exact sum_update ClientPc.wants s.clients c pc
  have hLaw₀ := hs.law
  have hRoom₀ := hs.room
  refine ⟨?_, ?_, ?_⟩ <;> omega

/-- A client that moves on without touching the pool. -/
theorem Accounted.goto_quiet {s' : PoolClients workerCount clientCount} {pc : ClientPc}
    (hs : Accounted s) (hClients : s'.clients = Function.update s.clients c pc)
    (hPool : s'.pool = s.pool)
    (hCounts : pc.counts = (s.clients c).counts) (hOwes : pc.owes = (s.clients c).owes)
    (hWants : pc.wants ≤ (s.clients c).wants) : Accounted s' := by
  have hCovered := hs.covered
  refine hs.goto hClients (Or.inl ⟨?_, hCounts, hOwes⟩) ?_ ?_
  · rw [hPool]
  · rw [hPool]
    omega
  · rw [hPool]
    omega

theorem owing_le (s : PoolClients workerCount clientCount) : s.owing ≤ clientCount := by
  have hEach : ∀ c ∈ Finset.univ, (s.clients c).owes ≤ 1 := by
    intro c _
    cases s.clients c <;> simp [ClientPc.owes]
  have hSum := Finset.sum_le_card_nsmul Finset.univ (fun c => (s.clients c).owes) 1 hEach
  rw [Finset.card_univ, Fintype.card_fin, smul_eq_mul, Nat.mul_one] at hSum
  exact hSum

theorem wants_le (s : PoolClients workerCount clientCount) (c : Fin clientCount) :
    (s.clients c).wants ≤ s.wanting :=
  Finset.single_le_sum (fun d _ => Nat.zero_le (s.clients d).wants) (Finset.mem_univ c)

theorem owes_le (s : PoolClients workerCount clientCount) (c : Fin clientCount) :
    (s.clients c).owes ≤ s.owing :=
  Finset.single_le_sum (fun d _ => Nat.zero_le (s.clients d).owes) (Finset.mem_univ c)

theorem counts_le (s : PoolClients workerCount clientCount) (c : Fin clientCount) :
    (s.clients c).counts ≤ s.counting :=
  Finset.single_le_sum (fun d _ => Nat.zero_le (s.clients d).counts) (Finset.mem_univ c)

/-- What the waits want is there. -/
theorem Accounted.wanting_le (h : Accounted s) : s.wanting ≤ s.pool.inFlight := by
  have hLaw := h.law
  have hCovered := h.covered
  omega

/-- A received completion can be uncounted. -/
theorem Accounted.pendingWork_ne_zero (h : Accounted s) {pending : ℕ}
    {received : List WorkCompletion} (hPc : s.clients c = .uncounting pending received) :
    s.pool.pendingWork ≠ 0 := by
  have hOwes := owes_le s c
  rw [hPc] at hOwes
  have hCovered := h.covered
  intro hZero
  rw [hZero, UInt64.toNat_zero] at hCovered
  simp only [ClientPc.owes] at hOwes
  omega

end Ledger

/-! ## Steps -/

/-- The step sends a unit to a worker that will not get to it. -/
def BehindShutdown (s : PoolClients workerCount clientCount) (act : Act workerCount clientCount) :
    Prop :=
  ∃ c item, ∃ w : Fin workerCount, act = .send c w item ∧ item ≠ .shutdown ∧
    s.pool.isClosed w = false ∧ ¬ AsyncWorker.Open (s.pool.workers w)

/-- A wait loads a nonzero counter while another one has yet to receive or to uncount a
completion. -/
def Overlaps (s : PoolClients workerCount clientCount) (act : Act workerCount clientCount) :
    Prop :=
  ∃ c d, act = .wait c ∧ s.pool.pendingWork ≠ 0 ∧ d ≠ c ∧
    0 < (s.clients d).wants + (s.clients d).owes

theorem overlaps_wait_iff {s : PoolClients workerCount clientCount} {c : Fin clientCount} :
    Overlaps s (.wait c) ↔
      s.pool.pendingWork ≠ 0 ∧ ∃ d, d ≠ c ∧ 0 < (s.clients d).wants + (s.clients d).owes := by
  constructor
  · rintro ⟨_, d, hAct, hPending, hOther⟩
    cases hAct
    exact ⟨hPending, d, hOther⟩
  · rintro ⟨hPending, d, hOther⟩
    exact ⟨c, d, rfl, hPending, hOther⟩

theorem Overlaps.exists_wait {s : PoolClients workerCount clientCount}
    {act : Act workerCount clientCount} (h : Overlaps s act) : ∃ c, act = .wait c := by
  obtain ⟨c, _, hAct, -⟩ := h
  exact ⟨c, hAct⟩

instance (s : PoolClients workerCount clientCount) (act : Act workerCount clientCount) :
    Decidable (Overlaps s act) :=
  match act with
  | .wait _ => decidable_of_iff _ overlaps_wait_iff.symm
  | .work _ => isFalse fun h => by cases h.exists_wait.choose_spec
  | .send _ _ _ => isFalse fun h => by cases h.exists_wait.choose_spec
  | .proceed _ => isFalse fun h => by cases h.exists_wait.choose_spec

section Steps

variable {s s' : PoolClients workerCount clientCount} {act : Act workerCount clientCount}

theorem accounted_new (workerCount clientCount : ℕ) : Accounted (new workerCount clientCount) := by
  have hFlight := spawn_inFlight workerCount
  have hLedger : (new workerCount clientCount).counting = 0 ∧
      (new workerCount clientCount).owing = 0 ∧ (new workerCount clientCount).wanting = 0 :=
    ⟨Finset.sum_const_zero, Finset.sum_const_zero, Finset.sum_const_zero⟩
  obtain ⟨hCounting, hOwing, hWanting⟩ := hLedger
  refine ⟨?_, ?_, ?_⟩
  · left
    rw [hCounting, hOwing, new, hFlight]
  · rw [hCounting, hOwing, new, hFlight]
    rfl
  · rw [hWanting, hOwing]
    exact Nat.zero_le _

/-- When no other wait overlaps, nobody wants or owes anything at the load. -/
theorem wanting_add_owing_eq_zero {c : Fin clientCount} (hLoad : ¬ Overlaps s (.wait c))
    (hPc : s.clients c = .idle) (hPending : s.pool.pendingWork ≠ 0) :
    s.wanting + s.owing = 0 := by
  have hEach : ∀ d, (s.clients d).wants + (s.clients d).owes = 0 := by
    intro d
    by_cases hdc : d = c
    · rw [hdc, hPc]
      rfl
    · by_contra hPos
      exact hLoad ⟨c, d, rfl, hPending, hdc, Nat.pos_of_ne_zero hPos⟩
  rw [wanting, owing, ← Finset.sum_add_distrib]
  exact Finset.sum_eq_zero fun d _ => hEach d

/-- A unit in the queue of an open worker is in flight, and its client will count it. -/
theorem Accounted.sendUnit (hs : Accounted s) {c : Fin clientCount} {w : Fin workerCount}
    {item : WorkItem} {unit : SchedulableUnit} {sent : Fin clientCount → List (ℕ × String)}
    (hPc : s.clients c = .idle) (hUnit : item.unit? = some unit)
    (hOpen : AsyncWorker.Open (s.pool.workers w))
    (hRoom : s.pool.inFlight + clientCount + 1 < UInt64.size) :
    Accounted { s.goto c .counting with pool := s.pool.enqueue w item, sent } := by
  have hCovered := hs.covered
  have hFlight : (s.pool.enqueue w item).inFlight = s.pool.inFlight + 1 := by
    rw [enqueue_inFlight (Or.inr hOpen), hUnit]
    rfl
  have hPending : (s.pool.enqueue w item).pendingWork = s.pool.pendingWork := rfl
  refine hs.goto rfl (Or.inr ?_) ?_ ?_
  · rw [hFlight]
    omega
  · simp only [hFlight, hPending, hPc, ClientPc.counts, ClientPc.owes]
    omega
  · simp only [hPending, hPc, ClientPc.wants, ClientPc.owes]
    omega

/-- The counter does not overflow, it is at most what is in flight and owed. -/
theorem Accounted.count (hs : Accounted s) {c : Fin clientCount} (hPc : s.clients c = .counting) :
    Accounted { s.goto c .idle with pool := s.pool.countPending } := by
  have hRoom := hs.room
  have hCovered := hs.covered
  have hLaw := hs.law
  have hOwing := owing_le s
  have hCounts := counts_le s c
  rw [hPc] at hCounts
  simp only [ClientPc.counts] at hCounts
  have hRoom' : s.pool.inFlight + clientCount < UInt64.size := by omega
  have hCount := toNat_countPending s.pool (by omega)
  have hFlight : s.pool.countPending.inFlight = s.pool.inFlight := rfl
  refine hs.goto rfl (Or.inr ?_) ?_ ?_
  · exact hRoom'
  · simp only [hFlight, hCount, hPc, ClientPc.counts, ClientPc.owes]
  · simp only [hCount, hPc, ClientPc.wants, ClientPc.owes]
    omega

/-- A completion leaves the channel, and its client owes the counter one. -/
theorem Accounted.receive (hs : Accounted s) {c : Fin clientCount} {pending : ℕ}
    {received completions : List WorkCompletion} {completion : WorkCompletion}
    (hPc : s.clients c = .receiving pending received) (hLt : received.length < pending)
    (hChannel : s.pool.completions = completion :: completions) :
    Accounted { s.goto c (.uncounting pending (received ++ [completion])) with
      pool := { s.pool with completions } } := by
  have hRoom := hs.room
  have hCovered := hs.covered
  have hFlight : inFlight ⟨s.pool.workers, s.pool.globalLocks, completions,
      s.pool.pendingWork⟩ + 1 = s.pool.inFlight := by
    simp only [inFlight, hChannel, List.length_cons]
    omega
  refine hs.goto rfl (Or.inr ?_) ?_ ?_
  · dsimp only
    omega
  · simp only [hPc, ClientPc.counts, ClientPc.owes]
    omega
  · simp only [hPc, ClientPc.wants, ClientPc.owes, List.length_append, List.length_singleton]
    omega

/-- The counter is positive, it covers what is owed. -/
theorem Accounted.uncount (hs : Accounted s) {c : Fin clientCount} {pending : ℕ}
    {received : List WorkCompletion} (hPc : s.clients c = .uncounting pending received) :
    Accounted { s.goto c (.receiving pending received) with pool := s.pool.uncountPending } := by
  have hRoom := hs.room
  have hCovered := hs.covered
  have hUncount := toNat_uncountPending s.pool (hs.pendingWork_ne_zero hPc)
  have hFlight : s.pool.uncountPending.inFlight = s.pool.inFlight := rfl
  have hOwes := owes_le s c
  rw [hPc] at hOwes
  simp only [ClientPc.owes] at hOwes
  have hRoom' : s.pool.inFlight + clientCount < UInt64.size := by omega
  refine hs.goto rfl (Or.inr ?_) ?_ ?_
  · exact hRoom'
  · simp only [hFlight, hUncount, hPc, ClientPc.counts, ClientPc.owes]
    omega
  · simp only [hUncount, hPc, ClientPc.wants, ClientPc.owes]
    omega

/-- A worker that gets a unit is open, unless the unit is sent behind a shutdown. -/
theorem open_of_not_behindShutdown {c : Fin clientCount} {item : WorkItem}
    {unit : SchedulableUnit} {w : Fin workerCount}
    (hSend : ¬ BehindShutdown s (.send c w item)) (hUnit : item.unit? = some unit)
    (hClosed : s.pool.isClosed w = false) : AsyncWorker.Open (s.pool.workers w) := by
  by_contra hNot
  refine hSend ⟨c, item, w, rfl, ?_, hClosed, hNot⟩
  intro hShutdown
  rw [hShutdown] at hUnit
  cases hUnit

/-- The pool changes, with the same number of units in flight and the same counter. -/
theorem Accounted.of_pool_eq {pool : AsyncWorkerPool workerCount} (hs : Accounted s)
    (hFlight : pool.inFlight = s.pool.inFlight) (hPending : pool.pendingWork = s.pool.pendingWork) :
    Accounted { s with pool } := by
  refine ⟨?_, ?_, ?_⟩
  · rw [hFlight]
    exact hs.room
  · rw [hFlight, hPending]
    exact hs.law
  · rw [hPending]
    exact hs.covered

theorem accounted_step (hs : Accounted s) (hSend : ¬ BehindShutdown s act)
    (hLoad : ¬ Overlaps s act) (h : s.step act = some s') : Accounted s' := by
  cases step_cases h with
  | work hWork => exact hs.of_pool_eq (workStep_inFlight hWork) (workStep_pendingWork hWork)
  | sendFails => exact hs
  | sendShutdown => exact hs.of_pool_eq (enqueue_inFlight (Or.inl rfl)) rfl
  | sendUnit hPc hUnit hClosed hRoom' =>
    exact hs.sendUnit hPc hUnit (open_of_not_behindShutdown hSend hUnit hClosed) hRoom'
  | count hPc => exact hs.count hPc
  | @loadZero c hPc hPending =>
    refine hs.goto_quiet rfl rfl ?_ ?_ ?_ <;>
    · rw [hPc]
      rfl
  | @load c hPc hPending =>
    -- nobody else wants anything, so all that is counted is there for this wait
    have hNone := wanting_add_owing_eq_zero hLoad hPc hPending
    refine hs.goto rfl (Or.inl ⟨rfl, ?_, ?_⟩) ?_ ?_
    · rw [hPc]
      rfl
    · rw [hPc]
      rfl
    · rw [hPc]
      rfl
    · rw [hNone, hPc, Nat.zero_add]
      rfl
  | @lock c pending hPc hReceiver =>
    refine hs.goto_quiet rfl rfl ?_ ?_ ?_ <;>
    · rw [hPc]
      rfl
  | receive hPc hLt hChannel => exact hs.receive hPc hLt hChannel
  | @disconnect c pending received hPc hLt hChannel hClosed =>
    refine hs.goto_quiet rfl rfl ?_ ?_ (Nat.zero_le _) <;>
    · rw [hPc]
      rfl
  | @finish c pending received hPc hLe =>
    refine hs.goto_quiet rfl rfl ?_ ?_ (Nat.zero_le _) <;>
    · rw [hPc]
      rfl
  | uncount hPc => exact hs.uncount hPc
  | @resume c received hPc =>
    refine hs.goto_quiet rfl rfl ?_ ?_ ?_ <;>
    · rw [hPc]
      rfl

/-! ## Sends of units only -/

/-- The step sends a shutdown. -/
def Act.SendsShutdown : Act workerCount clientCount → Prop
  | .send _ _ item => item = .shutdown
  | _ => False

instance (act : Act workerCount clientCount) : Decidable act.SendsShutdown :=
  match act with
  | .send _ _ item => inferInstanceAs (Decidable (item = .shutdown))
  | .work _ => inferInstanceAs (Decidable False)
  | .wait _ => inferInstanceAs (Decidable False)
  | .proceed _ => inferInstanceAs (Decidable False)

/-- Without shutdowns all workers stay open. -/
theorem open_step (hOpen : Open s.pool) (hUnits : ¬ act.SendsShutdown)
    (h : s.step act = some s') : Open s'.pool := by
  cases step_cases h with
  | work hWork => exact workStep_open hOpen hWork
  | sendShutdown => exact absurd rfl hUnits
  | sendUnit => exact enqueue_open hOpen hUnits
  | _ => exact hOpen

theorem not_behindShutdown (hOpen : Open s.pool) : ¬ BehindShutdown s act := by
  rintro ⟨c, item, w, -, -, -, hNot⟩
  exact hNot (hOpen w)

end Steps

/-! ## Main result -/

/-- A client inside `wait_for_completions` that has completions yet to receive. -/
def StillWaiting (pc : ClientPc) : Prop := 0 < pc.wants

/-- The counter is not decremented at zero, and a client that still waits has something
in flight to wait for. -/
structure Sound (s : PoolClients workerCount clientCount) : Prop where
  noUnderflow : ∀ c pending received, s.clients c = .uncounting pending received →
    s.pool.pendingWork ≠ 0
  noStarvation : ∀ c, StillWaiting (s.clients c) → s.pool.inFlight ≠ 0

/-- As long as no wait loads a nonzero counter while another one has yet to receive or to
uncount a completion, every state is sound. -/
theorem sound_of_not_overlaps {acts : List (Act workerCount clientCount)}
    {s : PoolClients workerCount clientCount} (hUnits : ∀ act ∈ acts, ¬ act.SendsShutdown)
    (hRun : run step (new workerCount clientCount) acts = some s)
    (hLoads : Along step (fun s act => ¬ Overlaps s act) (new workerCount clientCount) acts) :
    Sound s := by
  have hStart : Open (new workerCount clientCount).pool ∧ Accounted (new workerCount clientCount) :=
    ⟨spawn_open workerCount, accounted_new workerCount clientCount⟩
  have hInv : Open s.pool ∧ Accounted s := by
    refine invariant_along (I := fun t => Open t.pool ∧ Accounted t) ?_ hRun
      (hLoads.and_forall hUnits) hStart
    rintro t act t' ⟨hOpen, hAccounted⟩ ⟨hLoad, hUnit⟩ h
    exact ⟨open_step hOpen hUnit h,
      accounted_step hAccounted (not_behindShutdown hOpen) hLoad h⟩
  obtain ⟨-, hAccounted⟩ := hInv
  constructor
  · intro c pending received hPc
    exact hAccounted.pendingWork_ne_zero hPc
  · intro c hWaits hNothing
    have hWants := wants_le s c
    have hWanting := hAccounted.wanting_le
    rw [StillWaiting] at hWaits
    omega

/-- The first of two clients sends a unit and waits for it. Meanwhile the second one sends a
unit, too, and when the first one has its completion it waits in turn. -/
def waitInTurn (c d : Fin 2) (v w : Fin 2) : List (Act 2 2) :=
  let tx id :=
    WorkItem.transaction (Transaction.new id [AccountMeta.new (Pubkey.filled 1) true] 1 1)
  [.send c v (tx "first"), .proceed c, .wait c, .proceed c, .work v, .work v, .work v, .work v,
    .work v, .proceed c, .proceed c, .send d w (tx "second"), .proceed d, .proceed c, .proceed c,
    .wait d, .work w, .work w, .proceed d]

/-- It waits for a unit that is in flight. -/
theorem sound_of_not_overlaps_waitInTurn :
    ∃ s, run step (new 2 2) (waitInTurn 0 1 0 1) = some s ∧ s.clients 0 = .idle ∧
      StillWaiting (s.clients 1) ∧ Sound s := by
  have hUnits : ∀ act ∈ waitInTurn 0 1 0 1, ¬ act.SendsShutdown := by decide
  have hLoads : Along step (fun s act => ¬ Overlaps s act) (new 2 2) (waitInTurn 0 1 0 1) := by
    decide +kernel
  obtain ⟨s, hRun, hIdle, hWaits⟩ : ∃ s, run step (new 2 2) (waitInTurn 0 1 0 1) = some s ∧
      s.clients 0 = .idle ∧ StillWaiting (s.clients 1) :=
    ⟨_, rfl, rfl, Nat.one_pos⟩
  exact ⟨s, hRun, hIdle, hWaits, sound_of_not_overlaps hUnits hRun hLoads⟩

/-- Two clients load the counter while it is one; the first one to lock the receiver
takes the only completion. -/
def twoWaits (c d : Fin 2) (w : Fin 1) : List (Act 1 2) :=
  [.send c w (.transaction (Transaction.new "tx" [] 1 1)), .proceed c, .wait c, .wait d,
    .work w, .work w, .work w, .work w, .work w,
    .proceed c, .proceed c, .proceed c, .proceed c, .proceed d]

/-- The other one waits for a completion that never comes. -/
theorem not_sound :
    ¬ ∀ (workerCount clientCount : ℕ) (acts : List (Act workerCount clientCount))
      (s : PoolClients workerCount clientCount), (∀ act ∈ acts, ¬ act.SendsShutdown) →
        run step (new workerCount clientCount) acts = some s → Sound s := by
  intro hAll
  obtain ⟨s, hRun, hWaits, hNothing⟩ : ∃ s, run step (new 1 2) (twoWaits 0 1 0) = some s ∧
      s.clients 1 = .receiving 1 [] ∧ s.pool.inFlight = 0 :=
    ⟨_, rfl, rfl, rfl⟩
  have hUnits : ∀ act ∈ twoWaits 0 1 0, ¬ act.SendsShutdown := by decide
  apply (hAll 1 2 (twoWaits 0 1 0) s hUnits hRun).noStarvation 1 _ hNothing
  rw [hWaits]
  exact Nat.one_pos

end PoolClients

end Blunder
