import Blunder.Core.LockGuard
import Mathlib.Data.Multiset.Bind
import Mathlib.Tactic.Abel

/-!
# Asynchronous account locks

`AsyncAccountLocks` keeps the tables of `AccountLocks` under two tokio `RwLock`s.
`acquire`, `would_conflict` and `release` take `write_locked`, then `read_locked`,
each as a step of its own, run their body and unlock in the reverse order. `Drop`
does not wait: it runs two separate critical sections, and when `try_write` fails
it skips the section and with it the release of the accounts.

A state holds the tables, the two locks, the live guards and the operations in
progress. An operation in progress is one task's current call; a task without one may
start any operation on any live guard, so the labels cover every interleaving.

* `step_inv`: the tables summarize the live guards, the operations in progress and
  the sets that skipped sections left behind.
* `quiescent_tables_empty_iff`: once no guard is alive and no operation in progress,
  the tables are empty exactly when no `try_write` of a nonempty set failed.
* `not_leakFree`: a query that holds `write_locked` during a drop makes it leak.
-/

namespace Blunder.AsyncLocks

open Foundation.LockTable Foundation.Transition

/-! ## Locks and operations -/

/-- `tokio::sync::RwLock`: the number of readers and whether a writer holds it. -/
structure RwLock where
  readers : ℕ
  writer : Bool
deriving DecidableEq

namespace RwLock

def unlocked : RwLock := ⟨0, false⟩

/-- No task holds the lock. -/
def isFree (lock : RwLock) : Bool := !lock.writer && lock.readers == 0

/-- Lock for reading (`exclusive = false`) or for writing, unless it has to wait. -/
def acquire (lock : RwLock) (exclusive : Bool) : Option RwLock :=
  if exclusive then
    if lock.isFree then some ⟨0, true⟩ else none
  else
    if lock.writer then none else some ⟨lock.readers + 1, false⟩

def release (lock : RwLock) (exclusive : Bool) : RwLock :=
  if exclusive then ⟨lock.readers, false⟩ else ⟨lock.readers - 1, lock.writer⟩

end RwLock

inductive Call
  | acquire (writeAccounts readAccounts : Finset Pubkey)
  | query (writeAccounts readAccounts : Finset Pubkey)
  | release (guard : AccountLockGuard)
deriving DecidableEq

/-- What the body of a call leaves for its return. -/
inductive Outcome
  | acquired (result : Except MevError AccountLockGuard)
  | queried (conflict : Bool)
  | released (guard : AccountLockGuard)
deriving DecidableEq

/-- `would_conflict` locks for reading, `acquire` and `release` for writing. -/
def Call.exclusive : Call → Bool
  | .query .. => false
  | _ => true

def Outcome.exclusive : Outcome → Bool
  | .queried _ => false
  | _ => true

/-- The body of a call, run while both locks are held. -/
def Call.body : Call → AccountLocks → AccountLocks × Outcome
  | .acquire writeAccounts readAccounts, locks =>
    let (locks, result) := AccountLockGuard.acquire locks writeAccounts readAccounts
    (locks, .acquired result)
  | .query writeAccounts readAccounts, locks =>
    (locks, .queried (locks.wouldConflict writeAccounts readAccounts))
  | .release guard, locks => (guard.drop locks, .released guard)

inductive EnterStage
  | lockWrite
  | lockRead
  | body
deriving DecidableEq

inductive LeaveStage
  | unlockRead
  | unlockWrite
deriving DecidableEq

/-- `Drop for AsyncAccountLockGuard`; `start` carries the `released` flag. -/
inductive DropStage
  | start (released : Bool)
  | tryWrite
  | writeHeld
  | tryRead
  | readHeld
deriving DecidableEq

/-- An operation in progress. -/
inductive Op
  | enter (call : Call) (stage : EnterStage)
  | leave (outcome : Outcome) (stage : LeaveStage)
  | drop (guard : AccountLockGuard) (stage : DropStage)
deriving DecidableEq

structure State where
  locks : AccountLocks
  writeLock : RwLock
  readLock : RwLock
  live : Multiset AccountLockGuard
  ops : Multiset Op

/-- A task starts an operation, or an operation in progress takes its next step.
`acquire_all_as_write` is an acquire without reads. -/
inductive Act
  | startAcquire (writeAccounts readAccounts : Finset Pubkey)
  | startQuery (writeAccounts readAccounts : Finset Pubkey)
  | startRelease (guard : AccountLockGuard)
  | startDrop (guard : AccountLockGuard)
  | advance (op : Op)

def init : State := ⟨AccountLocks.new, .unlocked, .unlocked, 0, 0⟩

/-- A call returns. `release` ends with the drop of a guard marked as released. -/
def State.finish (s : State) : Outcome → State
  | .acquired (.ok guard) => { s with live := guard ::ₘ s.live }
  | .acquired (.error _) => s
  | .queried _ => s
  | .released guard => { s with ops := .drop guard (.start true) ::ₘ s.ops }

/-- The next step of an operation that was taken out of `s.ops`. -/
def State.advance (s : State) : Op → Option State
  | .enter call .lockWrite =>
    (s.writeLock.acquire call.exclusive).map fun writeLock =>
      { s with writeLock, ops := .enter call .lockRead ::ₘ s.ops }
  | .enter call .lockRead =>
    (s.readLock.acquire call.exclusive).map fun readLock =>
      { s with readLock, ops := .enter call .body ::ₘ s.ops }
  | .enter call .body =>
    some { s with
      locks := (call.body s.locks).1
      ops := .leave (call.body s.locks).2 .unlockRead ::ₘ s.ops }
  | .leave outcome .unlockRead =>
    some { s with
      readLock := s.readLock.release outcome.exclusive
      ops := .leave outcome .unlockWrite ::ₘ s.ops }
  | .leave outcome .unlockWrite =>
    some ({ s with writeLock := s.writeLock.release outcome.exclusive }.finish outcome)
  | .drop _ (.start true) => some s
  | .drop guard (.start false) => some { s with ops := .drop guard .tryWrite ::ₘ s.ops }
  | .drop guard .tryWrite =>
    match s.writeLock.acquire true with
    | some writeLock => some { s with writeLock, ops := .drop guard .writeHeld ::ₘ s.ops }
    | none => some { s with ops := .drop guard .tryRead ::ₘ s.ops }
  | .drop guard .writeHeld =>
    some { s with
      locks := { s.locks with writeLocked := s.locks.writeLocked \ guard.writeAccounts }
      writeLock := s.writeLock.release true
      ops := .drop guard .tryRead ::ₘ s.ops }
  | .drop guard .tryRead =>
    match s.readLock.acquire true with
    | some readLock => some { s with readLock, ops := .drop guard .readHeld ::ₘ s.ops }
    | none => some s
  | .drop guard .readHeld =>
    some { s with
      locks := { s.locks with readLocked := decrementAll s.locks.readLocked guard.readAccounts }
      readLock := s.readLock.release true }

def step (s : State) : Act → Option State
  | .startAcquire writeAccounts readAccounts =>
    some { s with ops := .enter (.acquire writeAccounts readAccounts) .lockWrite ::ₘ s.ops }
  | .startQuery writeAccounts readAccounts =>
    some { s with ops := .enter (.query writeAccounts readAccounts) .lockWrite ::ₘ s.ops }
  | .startRelease guard =>
    if guard ∈ s.live then
      some { s with
        live := s.live.erase guard
        ops := .enter (.release guard) .lockWrite ::ₘ s.ops }
    else none
  | .startDrop guard =>
    if guard ∈ s.live then
      some { s with
        live := s.live.erase guard
        ops := .drop guard (.start false) ::ₘ s.ops }
    else none
  | .advance op =>
    if op ∈ s.ops then { s with ops := s.ops.erase op }.advance op else none

/-- A `try_write` finds its lock free, or has nothing to release. -/
def DropReleases (s : State) : Act → Prop
  | .advance (.drop guard .tryWrite) => s.writeLock.isFree = true ∨ guard.writeAccounts = ∅
  | .advance (.drop guard .tryRead) => s.readLock.isFree = true ∨ guard.readAccounts = ∅
  | _ => True

/-! ## Holders -/

/-- The write sets that an operation in progress still has in the table. -/
def Op.writes : Op → Multiset (Finset Pubkey)
  | .enter (.release guard) _ => {guard.writeAccounts}
  | .leave (.acquired (.ok guard)) _ => {guard.writeAccounts}
  | .drop guard (.start false) => {guard.writeAccounts}
  | .drop guard .tryWrite => {guard.writeAccounts}
  | .drop guard .writeHeld => {guard.writeAccounts}
  | _ => 0

/-- The read sets that an operation in progress still has in the table. -/
def Op.reads : Op → Multiset (Finset Pubkey)
  | .enter (.release guard) _ => {guard.readAccounts}
  | .leave (.acquired (.ok guard)) _ => {guard.readAccounts}
  | .drop _ (.start true) => 0
  | .drop guard _ => {guard.readAccounts}
  | _ => 0

def State.writers (s : State) : Multiset (Finset Pubkey) :=
  s.live.map AccountLockGuard.writeAccounts + s.ops.bind Op.writes

def State.readers (s : State) : Multiset (Finset Pubkey) :=
  s.live.map AccountLockGuard.readAccounts + s.ops.bind Op.reads

/-- Sets that a failed `try_write` left in the tables. -/
structure Leaked where
  writes : Multiset (Finset Pubkey)
  reads : Multiset (Finset Pubkey)

/-- Nothing was left behind but empty sets. -/
def Leaked.Clean (leaked : Leaked) : Prop :=
  (∀ w ∈ leaked.writes, w = ∅) ∧ ∀ r ∈ leaked.reads, r = ∅

/-- The tables summarize the live guards, the operations in progress and the leaked
sets. -/
def Inv (s : State) (leaked : Leaked) : Prop :=
  s.locks.Summarizes (s.writers + leaked.writes) (s.readers + leaked.reads)

/-! ## What a step changes -/

section Push

variable {s s' : State} {op : Op}

theorem writers_push (hLive : s'.live = s.live) (hOps : s'.ops = op ::ₘ s.ops) :
    s'.writers = op.writes + s.writers := by
  rw [State.writers, hLive, hOps, Multiset.cons_bind, State.writers]
  exact add_left_comm _ _ _

theorem readers_push (hLive : s'.live = s.live) (hOps : s'.ops = op ::ₘ s.ops) :
    s'.readers = op.reads + s.readers := by
  rw [State.readers, hLive, hOps, Multiset.cons_bind, State.readers]
  exact add_left_comm _ _ _

theorem writers_take (h : op ∈ s.ops) :
    s.writers = op.writes + { s with ops := s.ops.erase op }.writers :=
  writers_push (s := { s with ops := s.ops.erase op }) rfl (Multiset.cons_erase h).symm

theorem readers_take (h : op ∈ s.ops) :
    s.readers = op.reads + { s with ops := s.ops.erase op }.readers :=
  readers_push (s := { s with ops := s.ops.erase op }) rfl (Multiset.cons_erase h).symm

end Push

/-- The tables summarize the holders of a state, those of an operation taken out of
it, and the leaked sets. -/
def InvWith (s : State) (op : Op) (leaked : Leaked) : Prop :=
  s.locks.Summarizes (op.writes + s.writers + leaked.writes) (op.reads + s.readers + leaked.reads)

theorem inv_take {s : State} {op : Op} {leaked : Leaked} (h : Inv s leaked) (hOp : op ∈ s.ops) :
    InvWith { s with ops := s.ops.erase op } op leaked := by
  rw [Inv, writers_take hOp, readers_take hOp] at h
  exact h

theorem inv_push (s : State) (op : Op) {s' : State} {leaked : Leaked} (h : InvWith s op leaked)
    (hLocks : s'.locks = s.locks) (hLive : s'.live = s.live) (hOps : s'.ops = op ::ₘ s.ops) :
    Inv s' leaked := by
  rw [Inv, hLocks, writers_push hLive hOps, readers_push hLive hOps]
  exact h

/-- An operation that still has the same sets in the tables is put back. -/
theorem InvWith.push {s s' : State} {op op' : Op} {leaked : Leaked} (h : InvWith s op leaked)
    (hLocks : s'.locks = s.locks) (hLive : s'.live = s.live) (hOps : s'.ops = op' ::ₘ s.ops)
    (hWrites : op'.writes = op.writes) (hReads : op'.reads = op.reads) : Inv s' leaked := by
  refine inv_push s op' ?_ hLocks hLive hOps
  rw [InvWith, hWrites, hReads]
  exact h

theorem enter_writes (call : Call) (stage stage' : EnterStage) :
    (Op.enter call stage).writes = (Op.enter call stage').writes := by
  cases call <;> rfl

theorem enter_reads (call : Call) (stage stage' : EnterStage) :
    (Op.enter call stage).reads = (Op.enter call stage').reads := by
  cases call <;> rfl

theorem leave_writes (outcome : Outcome) (stage stage' : LeaveStage) :
    (Op.leave outcome stage).writes = (Op.leave outcome stage').writes := by
  rcases outcome with (_ | _) | _ | _ <;> rfl

theorem leave_reads (outcome : Outcome) (stage stage' : LeaveStage) :
    (Op.leave outcome stage).reads = (Op.leave outcome stage').reads := by
  rcases outcome with (_ | _) | _ | _ <;> rfl

/-- The body of a call trades the holders of the call for those of its outcome. -/
theorem body_summarizes {locks : AccountLocks} {call : Call} {stage : EnterStage}
    {stage' : LeaveStage} {writers readers : Multiset (Finset Pubkey)}
    (h : locks.Summarizes ((Op.enter call stage).writes + writers)
      ((Op.enter call stage).reads + readers)) :
    (call.body locks).1.Summarizes ((Op.leave (call.body locks).2 stage').writes + writers)
      ((Op.leave (call.body locks).2 stage').reads + readers) := by
  cases call with
  | acquire writeAccounts readAccounts =>
    simp only [Op.writes, Op.reads, zero_add] at h
    rcases AccountLockGuard.acquire_cases locks writeAccounts readAccounts with
      ⟨hFree, hEq⟩ | ⟨-, hEq⟩
    · simp only [Call.body, hEq, Op.writes, Op.reads, Multiset.singleton_add]
      exact h.retain ⟨writeAccounts, readAccounts⟩ hFree
    · simp only [Call.body, hEq, Op.writes, Op.reads, zero_add]
      exact h
  | query writeAccounts readAccounts => exact h
  | release guard =>
    simp only [Op.writes, Op.reads, Multiset.singleton_add] at h
    simp only [Call.body, Op.writes, Op.reads, zero_add]
    exact h.drop

theorem finish_inv {s : State} {outcome : Outcome} {stage : LeaveStage} {leaked : Leaked}
    (h : InvWith s (.leave outcome stage) leaked) : Inv (s.finish outcome) leaked := by
  cases outcome with
  | acquired result =>
    cases result with
    | ok guard =>
      have hWriters : (s.finish (.acquired (.ok guard))).writers =
          {guard.writeAccounts} + s.writers := by
        simp [State.finish, State.writers, ← Multiset.singleton_add, add_assoc]
      have hReaders : (s.finish (.acquired (.ok guard))).readers =
          {guard.readAccounts} + s.readers := by
        simp [State.finish, State.readers, ← Multiset.singleton_add, add_assoc]
      rw [Inv, hWriters, hReaders]
      exact h
    | error e =>
      simp only [InvWith, Op.writes, Op.reads, zero_add] at h
      exact h
  | queried conflict =>
    simp only [InvWith, Op.writes, Op.reads, zero_add] at h
    exact h
  | released guard => exact h.push rfl rfl rfl rfl rfl

theorem RwLock.acquire_exclusive_eq_none_iff {lock : RwLock} :
    lock.acquire true = none ↔ lock.isFree = false := by
  unfold RwLock.acquire
  cases hFree : lock.isFree <;> simp

theorem RwLock.isFree_of_acquire {lock lock' : RwLock} (h : lock.acquire true = some lock') :
    lock.isFree = true := by
  cases hFree : lock.isFree with
  | true => rfl
  | false =>
    rw [RwLock.acquire_exclusive_eq_none_iff.mpr hFree] at h
    cases h

/-- A condition that holds may be added to cleanness. -/
theorem clean_iff_of_true {leaked : Leaked} {p : Prop} (hp : p) :
    leaked.Clean ↔ leaked.Clean ∧ p :=
  ⟨fun h => ⟨h, hp⟩, fun h => h.1⟩

/-- The critical section for `write_locked` runs, or leaves its accounts behind. -/
theorem tryWrite_inv {s s' : State} {guard : AccountLockGuard} {leaked : Leaked}
    (h : InvWith s (.drop guard .tryWrite) leaked)
    (hStep : s.advance (.drop guard .tryWrite) = some s') :
    ∃ leaked', Inv s' leaked' ∧ (leaked'.Clean ↔ leaked.Clean ∧
      (s.writeLock.isFree = true ∨ guard.writeAccounts = ∅)) := by
  cases hLock : s.writeLock.acquire true with
  | some writeLock =>
    simp only [State.advance, hLock, Option.some.injEq] at hStep
    subst hStep
    exact ⟨leaked, h.push rfl rfl rfl rfl rfl,
      clean_iff_of_true (Or.inl (RwLock.isFree_of_acquire hLock))⟩
  | none =>
    simp only [State.advance, hLock, Option.some.injEq] at hStep
    subst hStep
    have hBusy := RwLock.acquire_exclusive_eq_none_iff.mp hLock
    refine ⟨⟨guard.writeAccounts ::ₘ leaked.writes, leaked.reads⟩, ?_, ?_⟩
    · refine inv_push s _ ?_ rfl rfl rfl
      have hMove : ({guard.writeAccounts} : Multiset (Finset Pubkey)) + s.writers + leaked.writes =
          0 + s.writers + (guard.writeAccounts ::ₘ leaked.writes) := by
        rw [← Multiset.singleton_add, zero_add, add_left_comm, add_assoc]
      simp only [InvWith, Op.writes] at h ⊢
      rw [← hMove]
      exact h
    · simp only [Leaked.Clean, Multiset.forall_mem_cons, hBusy, Bool.false_eq_true, false_or]
      tauto

/-- The critical section for `read_locked` runs, or leaves its accounts behind. -/
theorem tryRead_inv {s s' : State} {guard : AccountLockGuard} {leaked : Leaked}
    (h : InvWith s (.drop guard .tryRead) leaked)
    (hStep : s.advance (.drop guard .tryRead) = some s') :
    ∃ leaked', Inv s' leaked' ∧ (leaked'.Clean ↔ leaked.Clean ∧
      (s.readLock.isFree = true ∨ guard.readAccounts = ∅)) := by
  cases hLock : s.readLock.acquire true with
  | some readLock =>
    simp only [State.advance, hLock, Option.some.injEq] at hStep
    subst hStep
    exact ⟨leaked, h.push rfl rfl rfl rfl rfl,
      clean_iff_of_true (Or.inl (RwLock.isFree_of_acquire hLock))⟩
  | none =>
    simp only [State.advance, hLock, Option.some.injEq] at hStep
    subst hStep
    have hBusy := RwLock.acquire_exclusive_eq_none_iff.mp hLock
    refine ⟨⟨leaked.writes, guard.readAccounts ::ₘ leaked.reads⟩, ?_, ?_⟩
    · have hMove : ({guard.readAccounts} : Multiset (Finset Pubkey)) + s.readers + leaked.reads =
          s.readers + (guard.readAccounts ::ₘ leaked.reads) := by
        rw [← Multiset.singleton_add, add_left_comm, add_assoc]
      simp only [InvWith, Op.writes, Op.reads, zero_add] at h
      rw [Inv, ← hMove]
      exact h
    · simp only [Leaked.Clean, Multiset.forall_mem_cons, hBusy, Bool.false_eq_true, false_or]
      tauto

theorem advance_inv {s s' : State} {op : Op} {leaked : Leaked} (h : InvWith s op leaked)
    (hStep : s.advance op = some s') :
    ∃ leaked', Inv s' leaked' ∧
      (leaked'.Clean ↔ leaked.Clean ∧ DropReleases s (.advance op)) := by
  -- Only the two `try_write` steps can leave something behind.
  have hKeep : DropReleases s (.advance op) → Inv s' leaked →
      ∃ leaked', Inv s' leaked' ∧
        (leaked'.Clean ↔ leaked.Clean ∧ DropReleases s (.advance op)) :=
    fun hp hInv => ⟨leaked, hInv, clean_iff_of_true hp⟩
  cases op with
  | enter call stage =>
    cases stage with
    | lockWrite =>
      obtain ⟨writeLock, -, rfl⟩ := Option.map_eq_some_iff.mp hStep
      exact hKeep trivial (h.push rfl rfl rfl (enter_writes ..) (enter_reads ..))
    | lockRead =>
      obtain ⟨readLock, -, rfl⟩ := Option.map_eq_some_iff.mp hStep
      exact hKeep trivial (h.push rfl rfl rfl (enter_writes ..) (enter_reads ..))
    | body =>
      cases hStep
      refine hKeep trivial (inv_push { s with locks := (call.body s.locks).1 } _ ?_ rfl rfl rfl)
      rw [InvWith, add_assoc, add_assoc] at h ⊢
      exact body_summarizes h
  | leave outcome stage =>
    cases stage with
    | unlockRead =>
      cases hStep
      exact hKeep trivial (h.push rfl rfl rfl (leave_writes ..) (leave_reads ..))
    | unlockWrite =>
      cases hStep
      have hUnlocked : InvWith { s with writeLock := s.writeLock.release outcome.exclusive }
          (.leave outcome .unlockWrite) leaked := h
      exact hKeep trivial (finish_inv hUnlocked)
  | drop guard stage =>
    cases stage with
    | start released =>
      cases released with
      | true =>
        cases hStep
        simp only [InvWith, Op.writes, Op.reads, zero_add] at h
        exact hKeep trivial h
      | false =>
        cases hStep
        exact hKeep trivial (h.push rfl rfl rfl rfl rfl)
    | tryWrite => exact tryWrite_inv h hStep
    | writeHeld =>
      cases hStep
      have hWrite := h.write
      simp only [Op.writes, Multiset.singleton_add, Multiset.cons_add] at hWrite
      refine hKeep trivial (inv_push
        { s with locks := { s.locks with writeLocked := s.locks.writeLocked \ guard.writeAccounts } }
        (.drop guard .tryRead) ⟨?_, h.read⟩ rfl rfl rfl)
      simp only [Op.writes, zero_add]
      exact hWrite.release
    | tryRead => exact tryRead_inv h hStep
    | readHeld =>
      cases hStep
      have hWrite := h.write
      have hRead := h.read
      simp only [Op.writes, zero_add] at hWrite
      simp only [Op.reads, Multiset.singleton_add, Multiset.cons_add] at hRead
      exact hKeep trivial ⟨hWrite, hRead.release⟩

/-- A guard that starts its release or its drop keeps its accounts. -/
theorem start_inv {s s' : State} {guard : AccountLockGuard} {op : Op} {leaked : Leaked}
    (h : Inv s leaked) (hLive : guard ∈ s.live) (hWrites : op.writes = {guard.writeAccounts})
    (hReads : op.reads = {guard.readAccounts}) (hLocks : s'.locks = s.locks)
    (hLive' : s'.live = s.live.erase guard) (hOps : s'.ops = op ::ₘ s.ops) : Inv s' leaked := by
  refine inv_push { s with live := s.live.erase guard } op ?_ hLocks hLive' hOps
  have hWriters : s.writers = {guard.writeAccounts} + { s with live := s.live.erase guard }.writers := by
    rw [State.writers, State.writers, ← add_assoc, Multiset.singleton_add, ← Multiset.map_cons,
      Multiset.cons_erase hLive]
  have hReaders : s.readers = {guard.readAccounts} + { s with live := s.live.erase guard }.readers := by
    rw [State.readers, State.readers, ← add_assoc, Multiset.singleton_add, ← Multiset.map_cons,
      Multiset.cons_erase hLive]
  rw [Inv, hWriters, hReaders] at h
  rw [InvWith, hWrites, hReads]
  exact h

theorem step_inv {s s' : State} {act : Act} {leaked : Leaked} (h : Inv s leaked)
    (hStep : step s act = some s') :
    ∃ leaked', Inv s' leaked' ∧ (leaked'.Clean ↔ leaked.Clean ∧ DropReleases s act) := by
  cases act with
  | startAcquire writeAccounts readAccounts =>
    cases hStep
    refine ⟨leaked, inv_push s _ ?_ rfl rfl rfl, clean_iff_of_true trivial⟩
    simp only [InvWith, Op.writes, Op.reads, zero_add]
    exact h
  | startQuery writeAccounts readAccounts =>
    cases hStep
    refine ⟨leaked, inv_push s _ ?_ rfl rfl rfl, clean_iff_of_true trivial⟩
    simp only [InvWith, Op.writes, Op.reads, zero_add]
    exact h
  | startRelease guard =>
    obtain ⟨hLive, hEq⟩ := Option.ite_none_right_eq_some.mp hStep
    cases hEq
    exact ⟨leaked, start_inv h hLive rfl rfl rfl rfl rfl, clean_iff_of_true trivial⟩
  | startDrop guard =>
    obtain ⟨hLive, hEq⟩ := Option.ite_none_right_eq_some.mp hStep
    cases hEq
    exact ⟨leaked, start_inv h hLive rfl rfl rfl rfl rfl, clean_iff_of_true trivial⟩
  | advance op =>
    obtain ⟨hOp, hEq⟩ := Option.ite_none_right_eq_some.mp hStep
    exact advance_inv (s := { s with ops := s.ops.erase op }) (inv_take h hOp) hEq

theorem init_inv : Inv init ⟨0, 0⟩ := AccountLocks.Summarizes.new

/-- After a run the leaked sets are all empty exactly when every section of a drop
was entered or had nothing to release. -/
theorem run_inv {s s' : State} {acts : List Act} {leaked : Leaked} (h : Inv s leaked)
    (hRun : run step s acts = some s') :
    ∃ leaked', Inv s' leaked' ∧ (leaked'.Clean ↔ leaked.Clean ∧ Along step DropReleases s acts) := by
  induction acts generalizing s leaked with
  | nil =>
    cases hRun
    exact ⟨leaked, h, clean_iff_of_true trivial⟩
  | cons act acts ih =>
    obtain ⟨mid, hStep, hRest⟩ := run_cons_eq_some_iff.mp hRun
    obtain ⟨leakedMid, hMid, hCleanMid⟩ := step_inv h hStep
    obtain ⟨leaked', hEnd, hCleanEnd⟩ := ih hMid hRest
    refine ⟨leaked', hEnd, ?_⟩
    rw [hCleanEnd, hCleanMid, Along, hStep]
    simp only [Option.some.injEq, forall_eq', and_assoc]

/-- The tables that leaked sets alone account for are empty when the sets are. -/
theorem tables_empty_iff_clean {locks : AccountLocks} {leaked : Leaked}
    (h : locks.Summarizes leaked.writes leaked.reads) :
    locks.writeLocked = ∅ ∧ locks.readLocked = ∅ ↔ leaked.Clean := by
  have hWrite : locks.writeLocked = ∅ ↔ ∀ w ∈ leaked.writes, w = ∅ := by
    simp only [Finset.eq_empty_iff_forall_notMem, h.write.mem_iff]
    exact ⟨fun hAll w hw acc hacc => hAll acc ⟨w, hw, hacc⟩,
      fun hAll acc ⟨w, hw, hacc⟩ => hAll w hw acc hacc⟩
  have hRead : locks.readLocked = ∅ ↔ ∀ r ∈ leaked.reads, r = ∅ := by
    rw [h.read.eq_empty_iff]
    simp only [Finset.eq_empty_iff_forall_notMem]
  rw [hWrite, hRead, Leaked.Clean]

/-! ## Main results -/

/-- Once no guard is alive and no operation is in progress, both tables are empty
exactly when each `try_write` of the run found its lock free or had nothing to
release. -/
theorem quiescent_tables_empty_iff {s : State} {acts : List Act}
    (hRun : run step init acts = some s) (hLive : s.live = 0) (hOps : s.ops = 0) :
    s.locks.writeLocked = ∅ ∧ s.locks.readLocked = ∅ ↔ Along step DropReleases init acts := by
  obtain ⟨leaked, hInv, hClean⟩ := run_inv init_inv hRun
  have hTables : s.locks.Summarizes leaked.writes leaked.reads := by
    simpa only [Inv, State.writers, State.readers, hLive, hOps, Multiset.map_zero,
      Multiset.zero_bind, zero_add] using hInv
  rw [tables_empty_iff_clean hTables, hClean]
  exact and_iff_right ⟨fun w hw => absurd hw (Multiset.notMem_zero w),
    fun r hr => absurd hr (Multiset.notMem_zero r)⟩

/-- The steps of a call that acquires `guard`, run without interruption. -/
def acquireActs (guard : AccountLockGuard) : List Act :=
  let call := Call.acquire guard.writeAccounts guard.readAccounts
  [.startAcquire guard.writeAccounts guard.readAccounts, .advance (.enter call .lockWrite),
    .advance (.enter call .lockRead), .advance (.enter call .body),
    .advance (.leave (.acquired (.ok guard)) .unlockRead),
    .advance (.leave (.acquired (.ok guard)) .unlockWrite)]

/-- The steps of a drop. -/
def dropActs (guard : AccountLockGuard) : List Act :=
  [.startDrop guard, .advance (.drop guard (.start false)), .advance (.drop guard .tryWrite),
    .advance (.drop guard .writeHeld), .advance (.drop guard .tryRead),
    .advance (.drop guard .readHeld)]

/-- A guard that writes account 1. -/
def oneWriter : AccountLockGuard := ⟨{Pubkey.filled 1}, ∅⟩

theorem quiescent_tables_empty_iff_oneWriter :
    init.locks.writeLocked = ∅ ∧ init.locks.readLocked = ∅ ↔
      Along step DropReleases init (acquireActs oneWriter ++ dropActs oneWriter) :=
  quiescent_tables_empty_iff (s := init) (by rfl) rfl rfl

/-- A query takes `write_locked` before the drop's first `try_write` and goes on
after the drop. -/
def queryDuringDrop : List Act :=
  let query := Call.query ∅ ∅
  acquireActs oneWriter ++
    [.startQuery ∅ ∅, .advance (.enter query .lockWrite),
      .startDrop oneWriter, .advance (.drop oneWriter (.start false)),
      .advance (.drop oneWriter .tryWrite), .advance (.drop oneWriter .tryRead),
      .advance (.drop oneWriter .readHeld),
      .advance (.enter query .lockRead), .advance (.enter query .body),
      .advance (.leave (.queried false) .unlockRead),
      .advance (.leave (.queried false) .unlockWrite)]

/-- The write lock of account 1 outlives every guard and every operation. -/
theorem not_leakFree : ¬ ∀ acts s, run step init acts = some s → s.live = 0 → s.ops = 0 →
    s.locks.writeLocked = ∅ ∧ s.locks.readLocked = ∅ := by
  intro hAll
  have hEmpty := hAll queryDuringDrop ⟨⟨{Pubkey.filled 1}, ∅⟩, .unlocked, .unlocked, 0, 0⟩
    (by rfl) rfl rfl
  exact absurd hEmpty.1 (Finset.singleton_ne_empty _)

end Blunder.AsyncLocks
