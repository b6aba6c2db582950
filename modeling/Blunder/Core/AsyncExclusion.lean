import Blunder.Core.AsyncLockGuard
import Mathlib.Data.Multiset.Pairwise
import Mathlib.Data.Multiset.Replicate

/-!
# Exclusion and progress of the asynchronous locks

A drop may leave accounts behind in the tables, so these do not tell which guards exist.
Exclusion does not depend on that: what is left behind can only refuse a request. And the
operations cannot block each other for ever, because all of them take `write_locked` before
`read_locked`, and a drop takes them one at a time without waiting.

* `RwLock.HeldBy`: the state of a lock for the operations that hold it.
* `step_safe`: no two guards that hold accounts are in conflict, and the locks are those of the
  operations in progress.
* `reachable_exclusion`: what this means for every run.
* `reachable_progress`: in every reachable state all operations can end, and they do.
-/

namespace Blunder.AsyncLocks

open Foundation.LockTable Foundation.Transition

/-! ## Readers and writers -/

namespace RwLock

/-- The lock is held by any number of readers, or by one writer (`true`). -/
def HeldBy (lock : RwLock) (holders : Multiset Bool) : Prop :=
  lock.writer = false ∧ holders = Multiset.replicate lock.readers false ∨
    lock = ⟨0, true⟩ ∧ holders = {true}

variable {lock lock' : RwLock} {exclusive : Bool} {holders : Multiset Bool}

theorem unlocked_heldBy : unlocked.HeldBy 0 := Or.inl ⟨rfl, rfl⟩

theorem HeldBy.eq_unlocked (h : lock.HeldBy 0) : lock = unlocked := by
  obtain ⟨readers, writer⟩ := lock
  obtain ⟨hWriter, hHolders⟩ | ⟨-, hHolders⟩ := h
  · have hNone : readers = 0 := by
      have hCard := congrArg Multiset.card hHolders
      simpa using hCard.symm
    subst hNone
    cases hWriter
    rfl
  · exact absurd hHolders.symm (Multiset.singleton_ne_zero _)

theorem HeldBy.acquire (h : lock.HeldBy holders) (hLock : lock.acquire exclusive = some lock') :
    lock'.HeldBy (exclusive ::ₘ holders) := by
  cases exclusive with
  | true =>
    have hFree := isFree_of_acquire hLock
    obtain ⟨readers, writer⟩ := lock
    simp only [isFree, Bool.and_eq_true, Bool.not_eq_eq_eq_not, Bool.not_true, beq_iff_eq] at hFree
    obtain ⟨rfl, rfl⟩ := hFree
    cases hLock
    obtain ⟨-, rfl⟩ | ⟨hBusy, -⟩ := h
    · exact Or.inr ⟨rfl, rfl⟩
    · cases hBusy
  | false =>
    obtain ⟨readers, writer⟩ := lock
    cases writer with
    | true => cases hLock
    | false =>
      cases hLock
      obtain ⟨-, rfl⟩ | ⟨hBusy, -⟩ := h
      · exact Or.inl ⟨rfl, (Multiset.replicate_succ _ _).symm⟩
      · cases hBusy

theorem HeldBy.release (h : lock.HeldBy (exclusive ::ₘ holders)) :
    (lock.release exclusive).HeldBy holders := by
  obtain ⟨hWriter, hHolders⟩ | ⟨rfl, hHolders⟩ := h
  · obtain ⟨readers, writer⟩ := lock
    cases hWriter
    have hMem : exclusive ∈ Multiset.replicate readers false := hHolders ▸ Multiset.mem_cons_self _ _
    obtain rfl := Multiset.eq_of_mem_replicate hMem
    cases readers with
    | zero => cases hMem
    | succ readers =>
      rw [Multiset.replicate_succ, Multiset.cons_inj_right] at hHolders
      exact Or.inl ⟨rfl, hHolders⟩
  · obtain ⟨rfl, rfl⟩ : exclusive = true ∧ holders = 0 := by
      have hMem : exclusive ∈ ({true} : Multiset Bool) := hHolders ▸ Multiset.mem_cons_self _ _
      obtain rfl := Multiset.mem_singleton.mp hMem
      exact ⟨rfl, Multiset.cons_inj_right _ |>.mp hHolders⟩
    exact Or.inl ⟨rfl, rfl⟩

/-- A writer holds the lock alone. -/
theorem HeldBy.eq_zero_of_writer (h : lock.HeldBy (true ::ₘ holders)) : holders = 0 := by
  obtain ⟨-, hHolders⟩ | ⟨-, hHolders⟩ := h
  · have hMem : true ∈ Multiset.replicate lock.readers false := hHolders ▸ Multiset.mem_cons_self _ _
    cases Multiset.eq_of_mem_replicate hMem
  · exact Multiset.cons_inj_right _ |>.mp hHolders

theorem acquire_unlocked (exclusive : Bool) : ∃ lock, unlocked.acquire exclusive = some lock := by
  cases exclusive
  · exact ⟨_, rfl⟩
  · exact ⟨_, rfl⟩

end RwLock

/-- How an operation in progress holds `write_locked`. -/
def Op.writeHold : Op → Multiset Bool
  | .enter _ .lockWrite => 0
  | .enter call _ => {call.exclusive}
  | .leave outcome _ => {outcome.exclusive}
  | .drop _ .writeHeld => {true}
  | .drop _ _ => 0

/-- How an operation in progress holds `read_locked`. -/
def Op.readHold : Op → Multiset Bool
  | .enter call .body => {call.exclusive}
  | .leave outcome .unlockRead => {outcome.exclusive}
  | .drop _ .readHeld => {true}
  | _ => 0

/-! ## Guards that hold accounts -/

/-- The guard of an operation in progress with the accounts that it still has. -/
def Op.holds : Op → Multiset AccountLockGuard
  | .enter (.release guard) _ => {guard}
  | .leave (.acquired (.ok guard)) _ => {guard}
  | .drop _ (.start true) => 0
  | .drop guard .tryRead => {⟨∅, guard.readAccounts⟩}
  | .drop guard .readHeld => {⟨∅, guard.readAccounts⟩}
  | .drop guard _ => {guard}
  | _ => 0

/-- The live guards, and those that are being acquired or given back. -/
def State.holders (s : State) : Multiset AccountLockGuard := s.live + s.ops.bind Op.holds

def Compatible (holders : Multiset AccountLockGuard) : Prop :=
  holders.Pairwise fun g h => ¬ g.Conflict h

instance : Std.Symm fun g h : AccountLockGuard => ¬ g.Conflict h where
  symm _ _ hFree hConflict := hFree hConflict.symm

namespace Compatible

variable {holders holders' : Multiset AccountLockGuard} {guard guard' : AccountLockGuard}

theorem cons_iff : Compatible (guard ::ₘ holders) ↔
    (∀ h ∈ holders, ¬ guard.Conflict h) ∧ Compatible holders := by
  induction holders using Quotient.inductionOn with
  | _ l =>
    simp only [Compatible, Multiset.quot_mk_to_coe, Multiset.cons_coe,
      Multiset.pairwise_coe_iff_pairwise, List.pairwise_cons, Multiset.mem_coe]

theorem of_add (h : Compatible (holders + holders')) : Compatible holders' := by
  induction holders using Multiset.induction_on with
  | empty => rwa [zero_add] at h
  | cons guard holders ih =>
    rw [Multiset.cons_add, cons_iff] at h
    exact ih h.2

/-- A guard that has given accounts back is in conflict with no more guards. -/
theorem shrink (h : Compatible ({guard} + holders))
    (hWrite : guard'.writeAccounts ⊆ guard.writeAccounts)
    (hRead : guard'.readAccounts ⊆ guard.readAccounts) : Compatible ({guard'} + holders) := by
  rw [Multiset.singleton_add, cons_iff] at h ⊢
  refine ⟨?_, h.2⟩
  intro other hOther
  have hFree := not_not.mp (h.1 other hOther)
  exact not_not.mpr ⟨hFree.1.mono_left hWrite, hFree.2.1.mono_left hWrite,
    hFree.2.2.mono_left hRead⟩

end Compatible

section Holders

variable {s : State} {op : Op} {g : AccountLockGuard} {w r : Finset Pubkey}

/-- The tables have the sets of the guard, but for the write set that a drop has removed. -/
theorem Op.holds_cases (op : Op) :
    (op.holds = 0 ∧ op.writes = 0 ∧ op.reads = 0) ∨
    (∃ g, op.holds = {g} ∧ op.writes = {g.writeAccounts} ∧ op.reads = {g.readAccounts}) ∨
    ∃ g, g.writeAccounts = ∅ ∧ op.holds = {g} ∧ op.writes = 0 ∧ op.reads = {g.readAccounts} := by
  cases op with
  | enter call stage =>
    cases call with
    | release guard => exact Or.inr (Or.inl ⟨guard, rfl, rfl, rfl⟩)
    | _ => exact Or.inl ⟨rfl, rfl, rfl⟩
  | leave outcome stage =>
    obtain (_ | guard) | _ | _ := outcome
    · exact Or.inl ⟨rfl, rfl, rfl⟩
    · exact Or.inr (Or.inl ⟨guard, rfl, rfl, rfl⟩)
    · exact Or.inl ⟨rfl, rfl, rfl⟩
    · exact Or.inl ⟨rfl, rfl, rfl⟩
  | drop guard stage =>
    cases stage with
    | start released =>
      cases released with
      | true => exact Or.inl ⟨rfl, rfl, rfl⟩
      | false => exact Or.inr (Or.inl ⟨guard, rfl, rfl, rfl⟩)
    | tryWrite => exact Or.inr (Or.inl ⟨guard, rfl, rfl, rfl⟩)
    | writeHeld => exact Or.inr (Or.inl ⟨guard, rfl, rfl, rfl⟩)
    | _ => exact Or.inr (Or.inr ⟨⟨∅, guard.readAccounts⟩, rfl, rfl, rfl, rfl⟩)

theorem writers_of_holder (h : g ∈ s.holders) :
    g.writeAccounts = ∅ ∨ g.writeAccounts ∈ s.writers := by
  rcases Multiset.mem_add.mp h with hLive | hOps
  · exact Or.inr (Multiset.mem_add.mpr (Or.inl (Multiset.mem_map_of_mem _ hLive)))
  · obtain ⟨op, hOp, hg⟩ := Multiset.mem_bind.mp hOps
    rcases op.holds_cases with ⟨hNone, -, -⟩ | ⟨guard, hGuard, hWrites, -⟩ | ⟨guard, hEmpty, hGuard, -⟩
    · rw [hNone] at hg
      exact absurd hg (Multiset.notMem_zero _)
    · rw [hGuard] at hg
      obtain rfl := Multiset.mem_singleton.mp hg
      refine Or.inr (Multiset.mem_add.mpr (Or.inr (Multiset.mem_bind.mpr ⟨op, hOp, ?_⟩)))
      rw [hWrites]
      exact Multiset.mem_singleton_self _
    · rw [hGuard] at hg
      obtain rfl := Multiset.mem_singleton.mp hg
      exact Or.inl hEmpty

theorem readers_of_holder (h : g ∈ s.holders) : g.readAccounts ∈ s.readers := by
  rcases Multiset.mem_add.mp h with hLive | hOps
  · exact Multiset.mem_add.mpr (Or.inl (Multiset.mem_map_of_mem _ hLive))
  · obtain ⟨op, hOp, hg⟩ := Multiset.mem_bind.mp hOps
    refine Multiset.mem_add.mpr (Or.inr (Multiset.mem_bind.mpr ⟨op, hOp, ?_⟩))
    rcases op.holds_cases with ⟨hNone, -, -⟩ | ⟨guard, hGuard, -, hReads⟩ | ⟨guard, -, hGuard, -, hReads⟩
    · rw [hNone] at hg
      exact absurd hg (Multiset.notMem_zero _)
    · rw [hGuard] at hg
      obtain rfl := Multiset.mem_singleton.mp hg
      rw [hReads]
      exact Multiset.mem_singleton_self _
    · rw [hGuard] at hg
      obtain rfl := Multiset.mem_singleton.mp hg
      rw [hReads]
      exact Multiset.mem_singleton_self _

theorem holder_of_writer (h : w ∈ s.writers) : ∃ g ∈ s.holders, g.writeAccounts = w := by
  rcases Multiset.mem_add.mp h with hLive | hOps
  · obtain ⟨g, hg, rfl⟩ := Multiset.mem_map.mp hLive
    exact ⟨g, Multiset.mem_add.mpr (Or.inl hg), rfl⟩
  · obtain ⟨op, hOp, hw⟩ := Multiset.mem_bind.mp hOps
    rcases op.holds_cases with ⟨-, hNone, -⟩ | ⟨guard, hGuard, hWrites, -⟩ | ⟨-, -, -, hNone, -⟩
    · rw [hNone] at hw
      exact absurd hw (Multiset.notMem_zero _)
    · rw [hWrites] at hw
      obtain rfl := Multiset.mem_singleton.mp hw
      refine ⟨guard, Multiset.mem_add.mpr (Or.inr (Multiset.mem_bind.mpr ⟨op, hOp, ?_⟩)), rfl⟩
      rw [hGuard]
      exact Multiset.mem_singleton_self _
    · rw [hNone] at hw
      exact absurd hw (Multiset.notMem_zero _)

theorem holder_of_reader (h : r ∈ s.readers) : ∃ g ∈ s.holders, g.readAccounts = r := by
  rcases Multiset.mem_add.mp h with hLive | hOps
  · obtain ⟨g, hg, rfl⟩ := Multiset.mem_map.mp hLive
    exact ⟨g, Multiset.mem_add.mpr (Or.inl hg), rfl⟩
  · obtain ⟨op, hOp, hr⟩ := Multiset.mem_bind.mp hOps
    have hHolder : ∀ guard : AccountLockGuard, op.holds = {guard} → op.reads = {guard.readAccounts} →
        ∃ g ∈ s.holders, g.readAccounts = r := by
      intro guard hGuard hReads
      rw [hReads] at hr
      obtain rfl := Multiset.mem_singleton.mp hr
      refine ⟨guard, Multiset.mem_add.mpr (Or.inr (Multiset.mem_bind.mpr ⟨op, hOp, ?_⟩)), rfl⟩
      rw [hGuard]
      exact Multiset.mem_singleton_self _
    rcases op.holds_cases with ⟨-, -, hNone⟩ | ⟨guard, hGuard, -, hReads⟩ | ⟨guard, -, hGuard, -, hReads⟩
    · rw [hNone] at hr
      exact absurd hr (Multiset.notMem_zero _)
    · exact hHolder guard hGuard hReads
    · exact hHolder guard hGuard hReads

/-- What is free in the tables is in conflict with no guard that holds accounts. -/
theorem Inv.free_of_holder {leaked : Leaked} (hInv : Inv s leaked) (hFree : s.locks.Free w r)
    (h : g ∈ s.holders) : ¬ (AccountLockGuard.mk w r).Conflict g := by
  obtain ⟨hww, hwr, hrw⟩ := (@AccountLocks.Summarizes.free_iff _ _ _ ⟨w, r⟩ hInv).mp hFree
  have hReads := hwr _ (Multiset.mem_add.mpr (Or.inl (readers_of_holder h)))
  refine not_not.mpr ?_
  rcases writers_of_holder h with hEmpty | hWriter
  · rw [hEmpty]
    exact ⟨Finset.disjoint_empty_right _, hReads, Finset.disjoint_empty_right _⟩
  · have hMem := Multiset.mem_add.mpr (Or.inl (b := g.writeAccounts ∈ leaked.writes) hWriter)
    exact ⟨hww _ hMem, hReads, hrw _ hMem⟩

/-- When nothing was left behind, a conflict is one with a guard that holds accounts. -/
theorem Inv.exists_holder {leaked : Leaked} (hInv : Inv s leaked) (hClean : leaked.Clean)
    (hBusy : ¬ s.locks.Free w r) : ∃ g ∈ s.holders, (AccountLockGuard.mk w r).Conflict g := by
  by_contra hNone
  push Not at hNone
  apply hBusy
  have hHolder : ∀ g ∈ s.holders, Disjoint w g.writeAccounts ∧ Disjoint w g.readAccounts ∧
      Disjoint r g.writeAccounts := fun g hg => not_not.mp (hNone g hg)
  apply (@AccountLocks.Summarizes.free_iff _ _ _ ⟨w, r⟩ hInv).mpr
  refine ⟨?_, ?_, ?_⟩
  · intro w' hw'
    rcases Multiset.mem_add.mp hw' with hWriter | hLeaked
    · obtain ⟨g, hg, rfl⟩ := holder_of_writer hWriter
      exact (hHolder g hg).1
    · rw [hClean.1 w' hLeaked]
      exact Finset.disjoint_empty_right _
  · intro r' hr'
    rcases Multiset.mem_add.mp hr' with hReader | hLeaked
    · obtain ⟨g, hg, rfl⟩ := holder_of_reader hReader
      exact (hHolder g hg).2.1
    · rw [hClean.2 r' hLeaked]
      exact Finset.disjoint_empty_right _
  · intro w' hw'
    rcases Multiset.mem_add.mp hw' with hWriter | hLeaked
    · obtain ⟨g, hg, rfl⟩ := holder_of_writer hWriter
      exact (hHolder g hg).2.2
    · rw [hClean.1 w' hLeaked]
      exact Finset.disjoint_empty_right _

end Holders

/-! ## The invariant -/

/-- No two guards that hold accounts are in conflict, and the locks are those of the operations
in progress. -/
structure Safe (s : State) : Prop where
  compatible : Compatible s.holders
  writeLock : s.writeLock.HeldBy (s.ops.bind Op.writeHold)
  readLock : s.readLock.HeldBy (s.ops.bind Op.readHold)

/-- The same with an operation that was taken out of the state. -/
structure SafeWith (s : State) (op : Op) : Prop where
  compatible : Compatible (op.holds + s.holders)
  writeLock : s.writeLock.HeldBy (op.writeHold + s.ops.bind Op.writeHold)
  readLock : s.readLock.HeldBy (op.readHold + s.ops.bind Op.readHold)

theorem init_safe : Safe init :=
  ⟨Multiset.pairwise_zero _, RwLock.unlocked_heldBy, RwLock.unlocked_heldBy⟩

section Steps

variable {s s' : State} {op op' : Op} {leaked : Leaked}

theorem holders_push (hLive : s'.live = s.live) (hOps : s'.ops = op ::ₘ s.ops) :
    s'.holders = op.holds + s.holders := by
  rw [State.holders, hLive, hOps, Multiset.cons_bind, State.holders]
  exact add_left_comm _ _ _

theorem Safe.take (h : Safe s) (hOp : op ∈ s.ops) :
    SafeWith { s with ops := s.ops.erase op } op := by
  have hOps : s.ops = op ::ₘ s.ops.erase op := (Multiset.cons_erase hOp).symm
  have hHolders : s.holders = op.holds + { s with ops := s.ops.erase op }.holders :=
    holders_push (s := { s with ops := s.ops.erase op }) rfl hOps
  refine ⟨hHolders ▸ h.compatible, ?_, ?_⟩
  · have hWrite := h.writeLock
    rw [hOps, Multiset.cons_bind] at hWrite
    exact hWrite
  · have hRead := h.readLock
    rw [hOps, Multiset.cons_bind] at hRead
    exact hRead

theorem SafeWith.push (s : State) (op : Op) (h : SafeWith s op) :
    Safe { s with ops := op ::ₘ s.ops } where
  compatible := by
    have hHolders : { s with ops := op ::ₘ s.ops }.holders = op.holds + s.holders :=
      holders_push rfl rfl
    rw [hHolders]
    exact h.compatible
  writeLock := by
    rw [Multiset.cons_bind]
    exact h.writeLock
  readLock := by
    rw [Multiset.cons_bind]
    exact h.readLock

/-- An operation that is over. -/
theorem SafeWith.done (h : SafeWith s op) (hHolds : op.holds = 0) (hWrite : op.writeHold = 0)
    (hRead : op.readHold = 0) : Safe s where
  compatible := by
    have hCompatible := h.compatible
    rwa [hHolds, zero_add] at hCompatible
  writeLock := by
    have hLock := h.writeLock
    rwa [hWrite, zero_add] at hLock
  readLock := by
    have hLock := h.readLock
    rwa [hRead, zero_add] at hLock

theorem body_exclusive (call : Call) (locks : AccountLocks) :
    (call.body locks).2.exclusive = call.exclusive := by
  cases call <;> rfl

/-- A guard that is handed out is in conflict with no other one. -/
theorem body_holds {call : Call} (hInv : InvWith s (.enter call .body) leaked)
    (h : Compatible ((Op.enter call .body).holds + s.holders)) :
    Compatible ((Op.leave (call.body s.locks).2 .unlockRead).holds + s.holders) := by
  cases call with
  | acquire writeAccounts readAccounts =>
    simp only [InvWith, Op.writes, Op.reads, zero_add] at hInv
    simp only [Op.holds, zero_add] at h
    rcases AccountLockGuard.acquire_cases s.locks writeAccounts readAccounts with
      ⟨hFree, hEq⟩ | ⟨-, hEq⟩
    · simp only [Call.body, hEq, Op.holds, Multiset.singleton_add]
      exact Compatible.cons_iff.mpr ⟨fun g hg => Inv.free_of_holder hInv hFree hg, h⟩
    · simp only [Call.body, hEq, Op.holds, zero_add]
      exact h
  | query writeAccounts readAccounts => exact h
  | release guard =>
    have hOthers := h.of_add
    rwa [← zero_add s.holders] at hOthers

theorem finish_safe {outcome : Outcome} (h : SafeWith s (.leave outcome .unlockWrite)) :
    Safe ({ s with writeLock := s.writeLock.release outcome.exclusive }.finish outcome) := by
  have hRead := h.readLock
  simp only [Op.readHold, zero_add] at hRead
  cases outcome with
  | acquired result =>
    cases result with
    | ok guard =>
      refine ⟨?_, h.writeLock.release, hRead⟩
      have hHolders : { s with
          writeLock := s.writeLock.release true, live := guard ::ₘ s.live }.holders =
            {guard} + s.holders := by
        rw [State.holders, State.holders, Multiset.cons_add, Multiset.singleton_add]
      exact hHolders ▸ h.compatible
    | error e => exact ⟨h.compatible.of_add, h.writeLock.release, hRead⟩
  | queried conflict => exact ⟨h.compatible.of_add, h.writeLock.release, hRead⟩
  | released guard =>
    have hWrite := h.writeLock.release
    rw [← zero_add (s.ops.bind Op.writeHold)] at hWrite
    exact SafeWith.push { s with writeLock := s.writeLock.release true }
      (.drop guard (.start true)) ⟨h.compatible, hWrite, h.readLock⟩

theorem advance_safe (hInv : InvWith s op leaked) (h : SafeWith s op)
    (hStep : s.advance op = some s') : Safe s' := by
  cases op with
  | enter call stage =>
    cases stage with
    | lockWrite =>
      obtain ⟨writeLock, hLock, rfl⟩ := Option.map_eq_some_iff.mp hStep
      have hHeld := h.writeLock
      simp only [Op.writeHold, zero_add] at hHeld
      exact SafeWith.push { s with writeLock } (.enter call .lockRead)
        ⟨by cases call <;> exact h.compatible, hHeld.acquire hLock, h.readLock⟩
    | lockRead =>
      obtain ⟨readLock, hLock, rfl⟩ := Option.map_eq_some_iff.mp hStep
      have hHeld := h.readLock
      simp only [Op.readHold, zero_add] at hHeld
      exact SafeWith.push { s with readLock } (.enter call .body)
        ⟨by cases call <;> exact h.compatible, h.writeLock, hHeld.acquire hLock⟩
    | body =>
      cases hStep
      have hWrite := h.writeLock
      have hRead := h.readLock
      simp only [Op.writeHold, Op.readHold, ← body_exclusive call s.locks] at hWrite hRead
      exact SafeWith.push { s with locks := (call.body s.locks).1 }
        (.leave (call.body s.locks).2 .unlockRead)
        ⟨body_holds hInv h.compatible, hWrite, hRead⟩
  | leave outcome stage =>
    cases stage with
    | unlockRead =>
      cases hStep
      have hRead := h.readLock.release
      rw [← zero_add (s.ops.bind Op.readHold)] at hRead
      exact SafeWith.push { s with readLock := s.readLock.release outcome.exclusive }
        (.leave outcome .unlockWrite)
        ⟨by obtain (_ | _) | _ | _ := outcome <;> exact h.compatible, h.writeLock, hRead⟩
    | unlockWrite =>
      cases hStep
      exact finish_safe h
  | drop guard stage =>
    cases stage with
    | start released =>
      cases released with
      | true =>
        cases hStep
        exact h.done rfl rfl rfl
      | false =>
        cases hStep
        exact SafeWith.push s (.drop guard .tryWrite) ⟨h.compatible, h.writeLock, h.readLock⟩
    | tryWrite =>
      cases hLock : s.writeLock.acquire true with
      | some writeLock =>
        simp only [State.advance, hLock, Option.some.injEq] at hStep
        subst hStep
        have hHeld := h.writeLock
        simp only [Op.writeHold, zero_add] at hHeld
        exact SafeWith.push { s with writeLock } (.drop guard .writeHeld)
          ⟨h.compatible, hHeld.acquire hLock, h.readLock⟩
      | none =>
        simp only [State.advance, hLock, Option.some.injEq] at hStep
        subst hStep
        exact SafeWith.push s (.drop guard .tryRead)
          ⟨h.compatible.shrink (Finset.empty_subset _) (Finset.Subset.refl _), h.writeLock,
            h.readLock⟩
    | writeHeld =>
      cases hStep
      have hWrite := h.writeLock.release
      rw [← zero_add (s.ops.bind Op.writeHold)] at hWrite
      exact SafeWith.push
        { s with
          locks := { s.locks with writeLocked := s.locks.writeLocked \ guard.writeAccounts }
          writeLock := s.writeLock.release true }
        (.drop guard .tryRead)
        ⟨h.compatible.shrink (Finset.empty_subset _) (Finset.Subset.refl _), hWrite, h.readLock⟩
    | tryRead =>
      cases hLock : s.readLock.acquire true with
      | some readLock =>
        simp only [State.advance, hLock, Option.some.injEq] at hStep
        subst hStep
        have hHeld := h.readLock
        simp only [Op.readHold, zero_add] at hHeld
        exact SafeWith.push { s with readLock } (.drop guard .readHeld)
          ⟨h.compatible, h.writeLock, hHeld.acquire hLock⟩
      | none =>
        simp only [State.advance, hLock, Option.some.injEq] at hStep
        subst hStep
        have hWrite := h.writeLock
        have hRead := h.readLock
        simp only [Op.writeHold, Op.readHold, zero_add] at hWrite hRead
        exact ⟨h.compatible.of_add, hWrite, hRead⟩
    | readHeld =>
      cases hStep
      have hWrite := h.writeLock
      simp only [Op.writeHold, zero_add] at hWrite
      exact ⟨h.compatible.of_add, hWrite, h.readLock.release⟩

/-- An operation that holds nothing yet. -/
theorem Safe.start (h : Safe s) (hHolds : op.holds = 0) (hWrite : op.writeHold = 0)
    (hRead : op.readHold = 0) : Safe { s with ops := op ::ₘ s.ops } := by
  apply SafeWith.push
  refine ⟨?_, ?_, ?_⟩
  · rw [hHolds, zero_add]
    exact h.compatible
  · rw [hWrite, zero_add]
    exact h.writeLock
  · rw [hRead, zero_add]
    exact h.readLock

/-- A guard that starts its release or its drop keeps its accounts. -/
theorem Safe.giveBack {guard : AccountLockGuard} (h : Safe s) (hLive : guard ∈ s.live)
    (hHolds : op.holds = {guard}) (hWrite : op.writeHold = 0) (hRead : op.readHold = 0) :
    Safe { s with live := s.live.erase guard, ops := op ::ₘ s.ops } := by
  have hHolders : s.holders = {guard} + { s with live := s.live.erase guard }.holders := by
    rw [State.holders, State.holders, Multiset.singleton_add, ← Multiset.cons_add,
      Multiset.cons_erase hLive]
  apply SafeWith.push { s with live := s.live.erase guard } op
  refine ⟨?_, ?_, ?_⟩
  · rw [hHolds, ← hHolders]
    exact h.compatible
  · rw [hWrite, zero_add]
    exact h.writeLock
  · rw [hRead, zero_add]
    exact h.readLock

theorem step_safe {act : Act} (hInv : Inv s leaked) (h : Safe s) (hStep : step s act = some s') :
    Safe s' := by
  cases act with
  | startAcquire writeAccounts readAccounts =>
    cases hStep
    exact h.start rfl rfl rfl
  | startQuery writeAccounts readAccounts =>
    cases hStep
    exact h.start rfl rfl rfl
  | startRelease guard =>
    obtain ⟨hLive, hEq⟩ := Option.ite_none_right_eq_some.mp hStep
    cases hEq
    exact h.giveBack hLive rfl rfl rfl
  | startDrop guard =>
    obtain ⟨hLive, hEq⟩ := Option.ite_none_right_eq_some.mp hStep
    cases hEq
    exact h.giveBack hLive rfl rfl rfl
  | advance op =>
    obtain ⟨hOp, hEq⟩ := Option.ite_none_right_eq_some.mp hStep
    exact advance_safe (inv_take hInv hOp) (h.take hOp) hEq

end Steps

theorem reachable_safe {s : State} (h : Reachable step init s) : Safe s := by
  have hBoth : (∃ leaked, Inv s leaked) ∧ Safe s := by
    refine h.invariant (I := fun s => (∃ leaked, Inv s leaked) ∧ Safe s) ?_ ⟨⟨_, init_inv⟩, init_safe⟩
    intro s act s' hs hStep
    obtain ⟨⟨leaked, hInv⟩, hSafe⟩ := hs
    obtain ⟨leaked', hInv', -⟩ := step_inv hInv hStep
    exact ⟨⟨leaked', hInv'⟩, step_safe hInv hSafe hStep⟩
  exact hBoth.2

/-! ## Progress -/

inductive Which
  | write
  | read
deriving DecidableEq

/-- The lock that an operation in progress waits for in its next step. -/
def Op.waitsFor : Op → Option Which
  | .enter _ .lockWrite => some .write
  | .enter _ .lockRead => some .read
  | _ => none

/-- The steps that an operation in progress has before it, at most. -/
def Op.effort : Op → ℕ
  | .enter _ .lockWrite => 6
  | .enter _ .lockRead => 5
  | .enter _ .body => 4
  | .leave _ .unlockRead => 3
  | .leave _ .unlockWrite => 2
  | .drop _ (.start true) => 1
  | .drop _ (.start false) => 5
  | .drop _ .tryWrite => 4
  | .drop _ .writeHeld => 3
  | .drop _ .tryRead => 2
  | .drop _ .readHeld => 1

def State.effort (s : State) : ℕ := (s.ops.map Op.effort).sum

section Progress

variable {s s' : State} {op : Op}

theorem advance_of_waitsFor_none (h : op.waitsFor = none) : ∃ s', s.advance op = some s' := by
  cases op with
  | enter call stage =>
    cases stage with
    | body => exact ⟨_, rfl⟩
    | _ => cases h
  | leave outcome stage => cases stage <;> exact ⟨_, rfl⟩
  | drop guard stage =>
    cases stage with
    | start released => cases released <;> exact ⟨_, rfl⟩
    | tryWrite =>
      cases hLock : s.writeLock.acquire true with
      | none =>
        simp only [State.advance, hLock]
        exact ⟨_, rfl⟩
      | some writeLock =>
        simp only [State.advance, hLock]
        exact ⟨_, rfl⟩
    | tryRead =>
      cases hLock : s.readLock.acquire true with
      | none =>
        simp only [State.advance, hLock]
        exact ⟨_, rfl⟩
      | some readLock =>
        simp only [State.advance, hLock]
        exact ⟨_, rfl⟩
    | _ => exact ⟨_, rfl⟩

theorem effort_push {b : Op} (hOps : s'.ops = b ::ₘ s.ops) (hLt : b.effort < op.effort) :
    s'.effort < op.effort + s.effort := by
  rw [State.effort, hOps, Multiset.map_cons, Multiset.sum_cons]
  exact Nat.add_lt_add_right hLt _

theorem effort_done (hOps : s'.ops = s.ops) (hPos : 0 < op.effort) :
    s'.effort < op.effort + s.effort := by
  rw [State.effort, hOps]
  exact Nat.lt_add_of_pos_left hPos

/-- Each step of an operation brings it closer to its end. -/
theorem advance_effort (h : s.advance op = some s') : s'.effort < op.effort + s.effort := by
  cases op with
  | enter call stage =>
    cases stage with
    | lockWrite =>
      obtain ⟨writeLock, -, rfl⟩ := Option.map_eq_some_iff.mp h
      exact effort_push rfl (by simp [Op.effort])
    | lockRead =>
      obtain ⟨readLock, -, rfl⟩ := Option.map_eq_some_iff.mp h
      exact effort_push rfl (by simp [Op.effort])
    | body =>
      cases h
      exact effort_push rfl (by simp [Op.effort])
  | leave outcome stage =>
    cases stage with
    | unlockRead =>
      cases h
      exact effort_push rfl (by simp [Op.effort])
    | unlockWrite =>
      cases h
      cases outcome with
      | acquired result =>
        cases result with
        | ok guard => exact effort_done rfl (by simp [Op.effort])
        | error e => exact effort_done rfl (by simp [Op.effort])
      | queried conflict => exact effort_done rfl (by simp [Op.effort])
      | released guard => exact effort_push (b := .drop guard (.start true)) rfl (by simp [Op.effort])
  | drop guard stage =>
    cases stage with
    | start released =>
      cases released with
      | true =>
        cases h
        exact effort_done rfl (by simp [Op.effort])
      | false =>
        cases h
        exact effort_push rfl (by simp [Op.effort])
    | tryWrite =>
      cases hLock : s.writeLock.acquire true with
      | none =>
        simp only [State.advance, hLock, Option.some.injEq] at h
        subst h
        exact effort_push rfl (by simp [Op.effort])
      | some writeLock =>
        simp only [State.advance, hLock, Option.some.injEq] at h
        subst h
        exact effort_push rfl (by simp [Op.effort])
    | writeHeld =>
      cases h
      exact effort_push rfl (by simp [Op.effort])
    | tryRead =>
      cases hLock : s.readLock.acquire true with
      | none =>
        simp only [State.advance, hLock, Option.some.injEq] at h
        subst h
        exact effort_done rfl (by simp [Op.effort])
      | some readLock =>
        simp only [State.advance, hLock, Option.some.injEq] at h
        subst h
        exact effort_push rfl (by simp [Op.effort])
    | readHeld =>
      cases h
      exact effort_done rfl (by simp [Op.effort])

theorem step_effort (h : step s (.advance op) = some s') : s'.effort < s.effort := by
  obtain ⟨hOp, hEq⟩ := Option.ite_none_right_eq_some.mp h
  have hLt := advance_effort hEq
  have hTake : s.effort = op.effort + { s with ops := s.ops.erase op }.effort := by
    rw [State.effort, ← Multiset.cons_erase hOp, Multiset.map_cons, Multiset.sum_cons,
      Multiset.cons_erase hOp]
    rfl
  rwa [hTake]

theorem step_of_advance (hOp : op ∈ s.ops)
    (h : ∃ s', { s with ops := s.ops.erase op }.advance op = some s') :
    ∃ s', step s (.advance op) = some s' := by
  obtain ⟨s', hStep⟩ := h
  exact ⟨s', by rw [step, if_pos hOp, hStep]⟩

/-- An operation that waits holds nothing that another waiting one asks for. -/
theorem Op.holds_of_waitsFor {lock : Which} (h : op.waitsFor = some lock) :
    op.readHold = 0 ∧ (lock = .write → op.writeHold = 0) := by
  cases op with
  | enter call stage =>
    cases stage with
    | lockWrite => exact ⟨rfl, fun _ => rfl⟩
    | lockRead =>
      cases h
      exact ⟨rfl, fun hLock => by cases hLock⟩
    | body => cases h
  | _ => cases h

theorem bind_eq_zero {f : Op → Multiset Bool} (h : ∀ op ∈ s.ops, f op = 0) : s.ops.bind f = 0 := by
  rw [Multiset.bind_congr h, Multiset.bind_zero]

/-- When every operation waits, the last of the awaited locks is free. -/
theorem Safe.exists_granted (h : Safe s) (hOps : s.ops ≠ 0)
    (hWait : ∀ op ∈ s.ops, op.waitsFor ≠ none) :
    ∃ lock, (∃ op ∈ s.ops, op.waitsFor = some lock) ∧
      ∀ op ∈ s.ops, op.waitsFor = some lock → ∃ s', step s (.advance op) = some s' := by
  have hSome : ∀ op ∈ s.ops, ∃ lock, op.waitsFor = some lock :=
    fun op hOp => Option.ne_none_iff_exists'.mp (hWait op hOp)
  by_cases hReader : ∃ op ∈ s.ops, op.waitsFor = some .read
  · have hUnlocked : s.readLock = .unlocked := by
      have hHeld := h.readLock
      rw [bind_eq_zero fun op hOp => (Op.holds_of_waitsFor (hSome op hOp).choose_spec).1] at hHeld
      exact hHeld.eq_unlocked
    refine ⟨.read, hReader, ?_⟩
    intro op hOp hLock
    apply step_of_advance hOp
    cases op with
    | enter call stage =>
      cases stage with
      | lockRead =>
        obtain ⟨lock, hAcquire⟩ := RwLock.acquire_unlocked call.exclusive
        simp only [State.advance, hUnlocked, hAcquire]
        exact ⟨_, rfl⟩
      | _ => cases hLock
    | _ => cases hLock
  · have hWriter : ∀ op ∈ s.ops, op.waitsFor = some .write := by
      intro op hOp
      obtain ⟨lock, hLock⟩ := hSome op hOp
      cases lock with
      | write => exact hLock
      | read => exact absurd ⟨op, hOp, hLock⟩ hReader
    have hUnlocked : s.writeLock = .unlocked := by
      have hHeld := h.writeLock
      rw [bind_eq_zero fun op hOp => (Op.holds_of_waitsFor (hWriter op hOp)).2 rfl] at hHeld
      exact hHeld.eq_unlocked
    obtain ⟨first, hFirst⟩ := Multiset.exists_mem_of_ne_zero hOps
    refine ⟨.write, ⟨first, hFirst, hWriter first hFirst⟩, ?_⟩
    intro op hOp hLock
    apply step_of_advance hOp
    cases op with
    | enter call stage =>
      cases stage with
      | lockWrite =>
        obtain ⟨lock, hAcquire⟩ := RwLock.acquire_unlocked call.exclusive
        simp only [State.advance, hUnlocked, hAcquire]
        exact ⟨_, rfl⟩
      | _ => cases hLock
    | _ => cases hLock

theorem Safe.exists_step (h : Safe s) (hOps : s.ops ≠ 0) : ∃ op s', step s (.advance op) = some s' := by
  by_cases hWait : ∀ op ∈ s.ops, op.waitsFor ≠ none
  · obtain ⟨lock, ⟨op, hOp, hLock⟩, hGranted⟩ := h.exists_granted hOps hWait
    obtain ⟨s', hStep⟩ := hGranted op hOp hLock
    exact ⟨op, s', hStep⟩
  · push Not at hWait
    obtain ⟨op, hOp, hNone⟩ := hWait
    obtain ⟨s', hStep⟩ := step_of_advance hOp (advance_of_waitsFor_none hNone)
    exact ⟨op, s', hStep⟩

end Progress

/-! ## Main results -/

/-- The asynchronous locks after a run.
* `holders`: no two guards that hold accounts are in conflict: an account is written by one of
  them, or read by any number.
* `kept`: the accounts of a live guard are in the tables, whatever the others give back.
* `granted`: what the tables allow is in conflict with no guard.
* `refused`: when every section of a drop so far found its lock free, what they refuse is in
  conflict with a guard.
* `sections`: the sections of two operations for the same lock overlap only when both read. -/
structure Exclusion (acts : List Act) (s : State) : Prop where
  holders : Compatible s.holders
  kept : ∀ g ∈ s.live, (∀ acc ∈ g.writeAccounts, acc ∈ s.locks.writeLocked) ∧
    ∀ acc ∈ g.readAccounts, acc ∈ s.locks.readLocked
  granted : ∀ w r, s.locks.wouldConflict w r = false →
    ∀ g ∈ s.holders, ¬ (AccountLockGuard.mk w r).Conflict g
  refused : Along step DropReleases init acts → ∀ w r, s.locks.wouldConflict w r = true →
    ∃ g ∈ s.holders, (AccountLockGuard.mk w r).Conflict g
  sections : ∀ op others, s.ops = op ::ₘ others →
    (true ∈ op.writeHold → ∀ other ∈ others, other.writeHold = 0) ∧
      (true ∈ op.readHold → ∀ other ∈ others, other.readHold = 0)

/-- One operation that holds a lock for writing keeps all others out. -/
theorem alone_of_writer {lock : RwLock} {hold : Op → Multiset Bool} {op other : Op}
    {others : Multiset Op} (hHeld : lock.HeldBy (hold op + others.bind hold))
    (hWriter : true ∈ hold op) (hOther : other ∈ others) : hold other = 0 := by
  obtain ⟨rest, hRest⟩ := Multiset.exists_cons_of_mem hWriter
  rw [hRest, Multiset.cons_add] at hHeld
  have hNone := hHeld.eq_zero_of_writer
  apply Multiset.eq_zero_of_forall_notMem
  intro exclusive hMem
  have hRestMem : exclusive ∈ rest + others.bind hold :=
    Multiset.mem_add.mpr (Or.inr (Multiset.mem_bind.mpr ⟨other, hOther, hMem⟩))
  rw [hNone] at hRestMem
  exact Multiset.notMem_zero _ hRestMem

/-- Exclusion does not depend on whether drops leave accounts behind. -/
theorem reachable_exclusion {s : State} {acts : List Act} (hRun : run step init acts = some s) :
    Exclusion acts s := by
  obtain ⟨leaked, hInv, hClean⟩ := run_inv init_inv hRun
  have hSafe := reachable_safe ⟨acts, hRun⟩
  refine ⟨hSafe.compatible, ?_, ?_, ?_, ?_⟩
  · intro g hg
    have hWriter : g.writeAccounts ∈ s.writers + leaked.writes :=
      Multiset.mem_add.mpr (Or.inl (Multiset.mem_add.mpr (Or.inl (Multiset.mem_map_of_mem _ hg))))
    have hReader : g.readAccounts ∈ s.readers + leaked.reads :=
      Multiset.mem_add.mpr (Or.inl (Multiset.mem_add.mpr (Or.inl (Multiset.mem_map_of_mem _ hg))))
    exact ⟨fun acc hAcc => hInv.write.mem_iff.mpr ⟨_, hWriter, hAcc⟩,
      fun acc hAcc => hInv.read.mem_iff.mpr ⟨_, hReader, hAcc⟩⟩
  · intro w r hFree g hg
    exact hInv.free_of_holder (AccountLocks.wouldConflict_eq_false_iff.mp hFree) hg
  · intro hAlong w r hBusy
    have hLeakFree : leaked.Clean := hClean.mpr
      ⟨⟨fun w hw => absurd hw (Multiset.notMem_zero w), fun r hr => absurd hr (Multiset.notMem_zero r)⟩,
        hAlong⟩
    apply hInv.exists_holder hLeakFree
    intro hFree
    rw [AccountLocks.wouldConflict_eq_false_iff.mpr hFree] at hBusy
    cases hBusy
  · intro op others hOps
    have hWrite := hSafe.writeLock
    have hRead := hSafe.readLock
    rw [hOps, Multiset.cons_bind] at hWrite hRead
    exact ⟨fun hWriter _ hOther => alone_of_writer hWrite hWriter hOther,
      fun hWriter _ hOther => alone_of_writer hRead hWriter hOther⟩

/-- From a state of the asynchronous locks on.
* `unblocked`, `granted`: a step that waits for no lock is enabled, and when all operations wait,
  a lock can be given to each of those that wait for it, so the order in which a lock serves
  them does not matter.
* `ends`, `bounded`: the operations in progress can end, and do so after a bounded number of
  their steps in any order. -/
structure Progress (s : State) : Prop where
  unblocked : ∀ op ∈ s.ops, op.waitsFor = none → ∃ s', step s (.advance op) = some s'
  granted : s.ops ≠ 0 → (∀ op ∈ s.ops, op.waitsFor ≠ none) →
    ∃ lock, (∃ op ∈ s.ops, op.waitsFor = some lock) ∧
      ∀ op ∈ s.ops, op.waitsFor = some lock → ∃ s', step s (.advance op) = some s'
  ends : ∃ acts s', run step s acts = some s' ∧ (∀ act ∈ acts, ∃ op, act = .advance op) ∧ s'.ops = 0
  bounded : ∀ acts s', run step s acts = some s' → (∀ act ∈ acts, ∃ op, act = .advance op) →
    acts.length ≤ s.effort

theorem reachable_progress {s : State} (h : Reachable step init s) : Progress s := by
  have hSafe := reachable_safe h
  refine ⟨fun op hOp hNone => step_of_advance hOp (advance_of_waitsFor_none hNone),
    hSafe.exists_granted, ?_, ?_⟩
  · have hNext : ∀ x, Reachable step init x → x.ops = 0 ∨ ∃ act x', (∃ op, act = .advance op) ∧
        step x act = some x' ∧ Reachable step init x' ∧ x'.effort < x.effort := by
      intro x hx
      by_cases hOps : x.ops = 0
      · exact Or.inl hOps
      · obtain ⟨op, x', hStep⟩ := (reachable_safe hx).exists_step hOps
        exact Or.inr ⟨.advance op, x', ⟨op, rfl⟩, hStep, hx.trans (.single hStep), step_effort hStep⟩
    obtain ⟨acts, s', hRun, hActs, -, hDone⟩ := exists_run_of_progress hNext h
    exact ⟨acts, s', hRun, hActs, hDone⟩
  · intro acts s' hRun hActs
    have hLower : ∀ x act x', (∃ op, act = .advance op) → step x act = some x' →
        x'.effort < x.effort := by
      intro x act x' hAct hStep
      obtain ⟨op, rfl⟩ := hAct
      exact step_effort hStep
    exact (Nat.le_add_right _ _).trans (length_add_le_of_lowers hLower hRun (Along.of_forall hActs))

/-- The drop of a writer beside a query: the tables keep account 1, which no guard holds. -/
theorem reachable_exclusion_queryDuringDrop : ∃ s, s.locks.writeLocked = {Pubkey.filled 1} ∧
    s.holders = 0 ∧ Exclusion queryDuringDrop s :=
  ⟨⟨⟨{Pubkey.filled 1}, ∅⟩, .unlocked, .unlocked, 0, 0⟩, rfl, rfl, reachable_exclusion (by rfl)⟩

/-- A query and an acquire, of which one holds `write_locked`. -/
def queryBesideAcquire : List Act :=
  [.startQuery ∅ ∅, .startAcquire {Pubkey.filled 1} ∅, .advance (.enter (.query ∅ ∅) .lockWrite)]

theorem reachable_progress_queryBesideAcquire :
    ∃ s, run step init queryBesideAcquire = some s ∧ s.effort = 11 ∧ Progress s := by
  obtain ⟨s, hRun, hEffort⟩ : ∃ s, run step init queryBesideAcquire = some s ∧ s.effort = 11 :=
    ⟨_, rfl, rfl⟩
  exact ⟨s, hRun, hEffort, reachable_progress ⟨_, hRun⟩⟩

end Blunder.AsyncLocks
