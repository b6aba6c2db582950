import Blunder.Core.LockGuard
import Blunder.Foundation.CriticalSection
import Mathlib.Algebra.BigOperators.Group.Finset.Basic
import Mathlib.Algebra.Order.Group.Multiset

/-!
# Account locks and threads

`AccountLocks` keeps each of its two tables under a `RwLock`. All operations that need both
locks take `write_locked` before `read_locked`. Here any number of threads acquire guards,
query the tables and drop guards; the loops over the accounts take one account in each step,
so the tables are seen half done.

* `LockCall.effect_run`: an operation that runs alone does what it does in a session.
* `step_inv`: the operations that have ended are a session.
* `reachable_linearizable`: what this means for every run.
-/

namespace Blunder

open Foundation.LockTable Foundation.Transition Foundation.CriticalSection

/-! ## Operations -/

/-- A `HashSet` of accounts, in the order in which it is iterated. -/
structure AccountSet where
  toList : List Pubkey
  nodup : toList.Nodup
deriving DecidableEq

def AccountSet.toFinset (accounts : AccountSet) : Finset Pubkey := ⟨accounts.toList, accounts.nodup⟩

/-- `AccountLockGuard` with its sets. -/
structure HeldGuard where
  writeAccounts : AccountSet
  readAccounts : AccountSet
deriving DecidableEq

def HeldGuard.guard (held : HeldGuard) : AccountLockGuard :=
  ⟨held.writeAccounts.toFinset, held.readAccounts.toFinset⟩

inductive LockCall
  | acquire (writeAccounts readAccounts : AccountSet)
  | drop (held : HeldGuard)
  | wouldConflict (writeAccounts readAccounts : AccountSet)
  | writeLockedCount
  | readLockedCount
deriving DecidableEq

inductive LockResult
  | acquired (result : Except MevError HeldGuard)
  | dropped
  | conflict (verdict : Bool)
  | count (accounts : ℕ)
deriving DecidableEq

namespace LockCall

/-- The operation as a single step. -/
def run : LockCall → AccountLocks → AccountLocks × LockResult
  | .acquire writeAccounts readAccounts, locks =>
    match AccountLockGuard.acquire locks writeAccounts.toFinset readAccounts.toFinset with
    | (locks, .ok _) => (locks, .acquired (.ok ⟨writeAccounts, readAccounts⟩))
    | (locks, .error e) => (locks, .acquired (.error e))
  | .drop held, locks => (held.guard.drop locks, .dropped)
  | .wouldConflict writeAccounts readAccounts, locks =>
    (locks, .conflict (locks.wouldConflict writeAccounts.toFinset readAccounts.toFinset))
  | .writeLockedCount, locks => (locks, .count locks.writeLocked.card)
  | .readLockedCount, locks => (locks, .count locks.readLocked.keys.card)

end LockCall

/-! ## The bodies of the operations -/

/-- The loops of `would_conflict`, with the accounts that are left. -/
inductive CheckBody
  | writes (todo : List Pubkey)
  | reads (todo : List Pubkey)
deriving DecidableEq

/-- The loops of `AccountLockGuard::acquire`; the first two are those of `would_conflict`. -/
inductive AcquireBody
  | check (body : CheckBody)
  | extend (todo : List Pubkey)
  | increment (todo : List Pubkey)
deriving DecidableEq

/-- The loops of `Drop for AccountLockGuard`. -/
inductive DropBody
  | remove (todo : List Pubkey)
  | decrement (todo : List Pubkey)
deriving DecidableEq

/-- The next account, or whether there is a conflict. -/
def checkNext (readAccounts : AccountSet) (locks : AccountLocks) : CheckBody → CheckBody ⊕ Bool
  | .writes (acc :: todo) =>
    if acc ∈ locks.writeLocked ∨ acc ∈ locks.readLocked then .inr true else .inl (.writes todo)
  | .writes [] => .inl (.reads readAccounts.toList)
  | .reads (acc :: todo) => if acc ∈ locks.writeLocked then .inr true else .inl (.reads todo)
  | .reads [] => .inr false

def acquireNext (writeAccounts readAccounts : AccountSet) (locks : AccountLocks) :
    AcquireBody → AcquireBody × AccountLocks ⊕ LockResult
  | .check body =>
    match checkNext readAccounts locks body with
    | .inl body => .inl (.check body, locks)
    | .inr true => .inr (.acquired (.error .lockAcquisitionFailed))
    | .inr false => .inl (.extend writeAccounts.toList, locks)
  | .extend (acc :: todo) =>
    .inl (.extend todo, { locks with writeLocked := insert acc locks.writeLocked })
  | .extend [] => .inl (.increment readAccounts.toList, locks)
  | .increment (acc :: todo) =>
    .inl (.increment todo, { locks with readLocked := increment locks.readLocked acc })
  | .increment [] => .inr (.acquired (.ok ⟨writeAccounts, readAccounts⟩))

def dropNext (held : HeldGuard) (locks : AccountLocks) :
    DropBody → DropBody × AccountLocks ⊕ LockResult
  | .remove (acc :: todo) =>
    .inl (.remove todo, { locks with writeLocked := locks.writeLocked.erase acc })
  | .remove [] => .inl (.decrement held.readAccounts.toList, locks)
  | .decrement (acc :: todo) =>
    .inl (.decrement todo, { locks with readLocked := decrement locks.readLocked acc })
  | .decrement [] => .inr .dropped

def queryNext (readAccounts : AccountSet) (locks : AccountLocks) (body : CheckBody) :
    CheckBody × AccountLocks ⊕ LockResult :=
  match checkNext readAccounts locks body with
  | .inl body => .inl (body, locks)
  | .inr verdict => .inr (.conflict verdict)

/-! ## What the bodies do -/

theorem AccountSet.toFinset_eq (accounts : AccountSet) :
    accounts.toFinset = accounts.toList.toFinset :=
  List.toFinset_eq accounts.nodup

theorem AccountSet.mem_toFinset {accounts : AccountSet} {acc : Pubkey} :
    acc ∈ accounts.toFinset ↔ acc ∈ accounts.toList :=
  Iff.rfl

section Bodies

variable {w r : AccountSet} {held : HeldGuard} {locks now now' : AccountLocks} {result : LockResult}

/-- The accounts that were checked are free. -/
def CheckBody.Reached (w r : AccountSet) (locks : AccountLocks) : CheckBody → Prop
  | .writes todo => ∃ done, done ++ todo = w.toList ∧
      ∀ acc ∈ done, ¬ (acc ∈ locks.writeLocked ∨ acc ∈ locks.readLocked)
  | .reads todo => ¬ locks.writesConflict w.toFinset ∧
      ∃ done, done ++ todo = r.toList ∧ ∀ acc ∈ done, acc ∉ locks.writeLocked

/-- What an acquire has done when it has got this far. -/
def AcquireBody.Reached (w r : AccountSet) (locks now : AccountLocks) : AcquireBody → Prop
  | .check body => now = locks ∧ body.Reached w r locks
  | .extend todo => locks.Free w.toFinset r.toFinset ∧ ∃ done, done ++ todo = w.toList ∧
      now = { locks with writeLocked := locks.writeLocked ∪ done.toFinset }
  | .increment todo => locks.Free w.toFinset r.toFinset ∧ ∃ done, done ++ todo = r.toList ∧
      now = ⟨locks.writeLocked ∪ w.toFinset,
        done.foldl Foundation.LockTable.increment locks.readLocked⟩

/-- What a drop has done when it has got this far. -/
def DropBody.Reached (held : HeldGuard) (locks now : AccountLocks) : DropBody → Prop
  | .remove todo => ∃ done, done ++ todo = held.writeAccounts.toList ∧
      now = { locks with writeLocked := locks.writeLocked \ done.toFinset }
  | .decrement todo => ∃ done, done ++ todo = held.readAccounts.toList ∧
      now = ⟨locks.writeLocked \ held.writeAccounts.toFinset,
        done.foldl Foundation.LockTable.decrement locks.readLocked⟩

/-- One more account is done. -/
theorem concat_append {done todo all : List Pubkey} {acc : Pubkey}
    (h : done ++ acc :: todo = all) : done ++ [acc] ++ todo = all := by
  rw [List.append_assoc]
  exact h

theorem forall_mem_concat {P : Pubkey → Prop} {done : List Pubkey} {acc : Pubkey}
    (hDone : ∀ a ∈ done, P a) (hAcc : P acc) : ∀ a ∈ done ++ [acc], P a :=
  List.forall_mem_append.mpr ⟨hDone, List.forall_mem_singleton.mpr hAcc⟩

theorem check_reached {b b' : CheckBody} (h : b.Reached w r locks)
    (hNext : checkNext r locks b = .inl b') : b'.Reached w r locks := by
  cases b with
  | writes todo =>
    obtain ⟨done, hDone, hFree⟩ := h
    cases todo with
    | nil =>
      cases hNext
      rw [List.append_nil] at hDone
      refine ⟨?_, [], rfl, List.forall_mem_nil _⟩
      rintro ⟨acc, hAcc, hLocked⟩
      exact hFree acc (hDone ▸ hAcc) hLocked
    | cons acc todo =>
      rw [checkNext] at hNext
      split at hNext
      · cases hNext
      · rename_i hAcc
        cases hNext
        exact ⟨done ++ [acc], concat_append hDone, forall_mem_concat hFree hAcc⟩
  | reads todo =>
    obtain ⟨hWrites, done, hDone, hFree⟩ := h
    cases todo with
    | nil => cases hNext
    | cons acc todo =>
      rw [checkNext] at hNext
      split at hNext
      · cases hNext
      · rename_i hAcc
        cases hNext
        exact ⟨hWrites, done ++ [acc], concat_append hDone, forall_mem_concat hFree hAcc⟩

theorem check_ended {b : CheckBody} {verdict : Bool} (h : b.Reached w r locks)
    (hNext : checkNext r locks b = .inr verdict) :
    locks.wouldConflict w.toFinset r.toFinset = verdict := by
  have hBusy : ¬ locks.Free w.toFinset r.toFinset →
      locks.wouldConflict w.toFinset r.toFinset = true := by
    intro hNot
    cases hVerdict : locks.wouldConflict w.toFinset r.toFinset with
    | true => rfl
    | false => exact absurd (AccountLocks.wouldConflict_eq_false_iff.mp hVerdict) hNot
  cases b with
  | writes todo =>
    obtain ⟨done, hDone, -⟩ := h
    cases todo with
    | nil => cases hNext
    | cons acc todo =>
      rw [checkNext] at hNext
      split at hNext
      · rename_i hLocked
        cases hNext
        refine hBusy fun hFree => hFree.1 ⟨acc, ?_, hLocked⟩
        rw [AccountSet.mem_toFinset, ← hDone]
        exact List.mem_append_right _ List.mem_cons_self
      · cases hNext
  | reads todo =>
    obtain ⟨hWrites, done, hDone, hFree⟩ := h
    cases todo with
    | nil =>
      cases hNext
      rw [List.append_nil] at hDone
      refine AccountLocks.wouldConflict_eq_false_iff.mpr ⟨hWrites, ?_⟩
      rintro ⟨acc, hAcc, hLocked⟩
      exact hFree acc (hDone ▸ hAcc) hLocked
    | cons acc todo =>
      rw [checkNext] at hNext
      split at hNext
      · rename_i hLocked
        cases hNext
        refine hBusy fun hFree => hFree.2 ⟨acc, ?_, hLocked⟩
        rw [AccountSet.mem_toFinset, ← hDone]
        exact List.mem_append_right _ List.mem_cons_self
      · cases hNext

theorem acquire_reached {b b' : AcquireBody} (h : b.Reached w r locks now)
    (hNext : acquireNext w r now b = .inl (b', now')) : b'.Reached w r locks now' := by
  cases b with
  | check body =>
    obtain ⟨rfl, hCheck⟩ := h
    rw [acquireNext] at hNext
    split at hNext
    · rename_i hInner
      cases hNext
      exact ⟨rfl, check_reached hCheck hInner⟩
    · cases hNext
    · rename_i hInner
      cases hNext
      refine ⟨AccountLocks.wouldConflict_eq_false_iff.mp (check_ended hCheck hInner), [], rfl, ?_⟩
      rw [List.toFinset_nil, Finset.union_empty]
  | extend todo =>
    obtain ⟨hFree, done, hDone, rfl⟩ := h
    cases todo with
    | nil =>
      cases hNext
      rw [List.append_nil] at hDone
      refine ⟨hFree, [], rfl, ?_⟩
      rw [hDone, AccountSet.toFinset_eq]
      rfl
    | cons acc todo =>
      cases hNext
      refine ⟨hFree, done ++ [acc], concat_append hDone, ?_⟩
      rw [List.toFinset_append, ← Finset.union_assoc, Finset.union_comm _ [acc].toFinset]
      rfl
  | increment todo =>
    obtain ⟨hFree, done, hDone, rfl⟩ := h
    cases todo with
    | nil => cases hNext
    | cons acc todo =>
      cases hNext
      refine ⟨hFree, done ++ [acc], concat_append hDone, ?_⟩
      rw [List.foldl_append]
      rfl

theorem acquire_ended {b : AcquireBody} (h : b.Reached w r locks now)
    (hNext : acquireNext w r now b = .inr result) :
    (LockCall.acquire w r).run locks = (now, result) := by
  cases b with
  | check body =>
    obtain ⟨rfl, hCheck⟩ := h
    rw [acquireNext] at hNext
    split at hNext
    · cases hNext
    · rename_i hInner
      cases hNext
      have hConflict := check_ended hCheck hInner
      rcases AccountLockGuard.acquire_cases now w.toFinset r.toFinset with ⟨hFree, -⟩ | ⟨-, hEq⟩
      · rw [AccountLocks.wouldConflict_eq_false_iff.mpr hFree] at hConflict
        cases hConflict
      · simp only [LockCall.run, hEq]
    · cases hNext
  | extend todo =>
    cases todo with
    | nil => cases hNext
    | cons acc todo => cases hNext
  | increment todo =>
    obtain ⟨hFree, done, hDone, rfl⟩ := h
    cases todo with
    | nil =>
      cases hNext
      rw [List.append_nil] at hDone
      rcases AccountLockGuard.acquire_cases locks w.toFinset r.toFinset with ⟨-, hEq⟩ | ⟨hBusy, -⟩
      · simp only [LockCall.run, hEq, hDone]
        rfl
      · exact absurd hFree hBusy
    | cons acc todo => cases hNext

theorem drop_reached {b b' : DropBody} (h : b.Reached held locks now)
    (hNext : dropNext held now b = .inl (b', now')) : b'.Reached held locks now' := by
  cases b with
  | remove todo =>
    obtain ⟨done, hDone, rfl⟩ := h
    cases todo with
    | nil =>
      cases hNext
      rw [List.append_nil] at hDone
      refine ⟨[], rfl, ?_⟩
      rw [hDone, AccountSet.toFinset_eq]
      rfl
    | cons acc todo =>
      cases hNext
      refine ⟨done ++ [acc], concat_append hDone, ?_⟩
      have hErase : (locks.writeLocked \ done.toFinset).erase acc =
          locks.writeLocked \ (done ++ [acc]).toFinset := by
        ext a
        simp only [Finset.mem_erase, Finset.mem_sdiff, List.toFinset_append, Finset.mem_union,
          List.mem_toFinset, List.mem_singleton]
        tauto
      rw [hErase]
  | decrement todo =>
    obtain ⟨done, hDone, rfl⟩ := h
    cases todo with
    | nil => cases hNext
    | cons acc todo =>
      cases hNext
      refine ⟨done ++ [acc], concat_append hDone, ?_⟩
      rw [List.foldl_append]
      rfl

theorem drop_ended {b : DropBody} (h : b.Reached held locks now)
    (hNext : dropNext held now b = .inr result) :
    (LockCall.drop held).run locks = (now, result) := by
  cases b with
  | remove todo =>
    cases todo with
    | nil => cases hNext
    | cons acc todo => cases hNext
  | decrement todo =>
    obtain ⟨done, hDone, rfl⟩ := h
    cases todo with
    | nil =>
      cases hNext
      rw [List.append_nil] at hDone
      rw [hDone]
      rfl
    | cons acc todo => cases hNext

end Bodies

/-! ## The program -/

/-- The two fields of `AccountLocks`. -/
inductive LockedTable
  | write
  | read
deriving DecidableEq

theorem LockedTable.mem_both (i : LockedTable) : i ∈ [write, read] := by
  cases i <;> decide

abbrev LockedTable.Contents : LockedTable → Type
  | .write => Finset Pubkey
  | .read => CountTable Pubkey

def AccountLocks.tables (locks : AccountLocks) : ∀ i, LockedTable.Contents i
  | .write => locks.writeLocked
  | .read => locks.readLocked

def AccountLocks.ofTables (m : ∀ i, LockedTable.Contents i) : AccountLocks := ⟨m .write, m .read⟩

theorem AccountLocks.tables_ofTables (m : ∀ i, LockedTable.Contents i) :
    (ofTables m).tables = m := by
  funext i
  cases i <;> rfl

/-- The steps that the check has left at most, for this many reads. -/
def CheckBody.stepsLeft (reads : ℕ) : CheckBody → ℕ
  | .writes todo => todo.length + (reads + 1)
  | .reads todo => todo.length

def AcquireBody.stepsLeft (writes reads : ℕ) : AcquireBody → ℕ
  | .check body => body.stepsLeft reads + (writes + reads + 2)
  | .extend todo => todo.length + (reads + 1)
  | .increment todo => todo.length

def DropBody.stepsLeft (reads : ℕ) : DropBody → ℕ
  | .remove todo => todo.length + (reads + 1)
  | .decrement todo => todo.length

theorem checkNext_lowers {r : AccountSet} {locks : AccountLocks} {b b' : CheckBody}
    (h : checkNext r locks b = .inl b') :
    b'.stepsLeft r.toList.length < b.stepsLeft r.toList.length := by
  cases b with
  | writes todo =>
    cases todo with
    | nil =>
      cases h
      simp only [CheckBody.stepsLeft, List.length_nil]
      omega
    | cons acc todo =>
      obtain ⟨-, hNext⟩ | ⟨-, hNext⟩ := ite_eq_iff.mp h
      · cases hNext
      · cases hNext
        simp only [CheckBody.stepsLeft, List.length_cons]
        omega
  | reads todo =>
    cases todo with
    | nil => cases h
    | cons acc todo =>
      obtain ⟨-, hNext⟩ | ⟨-, hNext⟩ := ite_eq_iff.mp h
      · cases hNext
      · cases hNext
        exact Nat.lt_succ_self _

theorem acquireNext_lowers {w r : AccountSet} {locks locks' : AccountLocks} {b b' : AcquireBody}
    (h : acquireNext w r locks b = .inl (b', locks')) :
    b'.stepsLeft w.toList.length r.toList.length < b.stepsLeft w.toList.length r.toList.length := by
  cases b with
  | check body =>
    rw [acquireNext] at h
    split at h
    · rename_i hCheck
      cases h
      exact Nat.add_lt_add_right (checkNext_lowers hCheck) _
    · cases h
    · cases h
      simp only [AcquireBody.stepsLeft]
      omega
  | extend todo =>
    cases todo with
    | nil =>
      cases h
      simp only [AcquireBody.stepsLeft, List.length_nil]
      omega
    | cons acc todo =>
      cases h
      simp only [AcquireBody.stepsLeft, List.length_cons]
      omega
  | increment todo =>
    cases todo with
    | nil => cases h
    | cons acc todo =>
      cases h
      exact Nat.lt_succ_self _

theorem dropNext_lowers {held : HeldGuard} {locks locks' : AccountLocks} {b b' : DropBody}
    (h : dropNext held locks b = .inl (b', locks')) :
    b'.stepsLeft held.readAccounts.toList.length < b.stepsLeft held.readAccounts.toList.length := by
  cases b with
  | remove todo =>
    cases todo with
    | nil =>
      cases h
      simp only [DropBody.stepsLeft, List.length_nil]
      omega
    | cons acc todo =>
      cases h
      simp only [DropBody.stepsLeft, List.length_cons]
      omega
  | decrement todo =>
    cases todo with
    | nil => cases h
    | cons acc todo =>
      cases h
      exact Nat.lt_succ_self _

namespace LockCall

/-- Where the body of an operation can be. -/
def Body : LockCall → Type
  | .acquire _ _ => AcquireBody
  | .drop _ => DropBody
  | .wouldConflict _ _ => CheckBody
  | .writeLockedCount => Unit
  | .readLockedCount => Unit

def start : ∀ call : LockCall, call.Body
  | .acquire writeAccounts _ => AcquireBody.check (.writes writeAccounts.toList)
  | .drop held => DropBody.remove held.writeAccounts.toList
  | .wouldConflict writeAccounts _ => CheckBody.writes writeAccounts.toList
  | .writeLockedCount => ()
  | .readLockedCount => ()

/-- The next step of a body, on the tables. -/
def advance : ∀ call : LockCall, call.Body → AccountLocks → call.Body × AccountLocks ⊕ LockResult
  | .acquire writeAccounts readAccounts, body, locks =>
    acquireNext writeAccounts readAccounts locks body
  | .drop held, body, locks => dropNext held locks body
  | .wouldConflict _ readAccounts, body, locks => queryNext readAccounts locks body
  | .writeLockedCount, _, locks => .inr (.count locks.writeLocked.card)
  | .readLockedCount, _, locks => .inr (.count locks.readLocked.keys.card)

def next (call : LockCall) (body : call.Body) (m : ∀ i, LockedTable.Contents i) :
    call.Body × (∀ i, LockedTable.Contents i) ⊕ LockResult :=
  match call.advance body (.ofTables m) with
  | .inl (body, locks) => .inl (body, locks.tables)
  | .inr result => .inr result

/-- The tables that an operation locks, in this order. -/
def locks : LockCall → List LockedTable
  | .writeLockedCount => [.write]
  | .readLockedCount => [.read]
  | _ => [.write, .read]

/-- `acquire` and `drop` lock the tables for writing. -/
def exclusive : LockCall → LockedTable → Bool
  | .acquire _ _ => fun _ => true
  | .drop _ => fun _ => true
  | _ => fun _ => false

def stepsLeft : ∀ call : LockCall, call.Body → ℕ
  | .acquire writeAccounts readAccounts =>
    AcquireBody.stepsLeft writeAccounts.toList.length readAccounts.toList.length
  | .drop held => DropBody.stepsLeft held.readAccounts.toList.length
  | .wouldConflict _ readAccounts => CheckBody.stepsLeft readAccounts.toList.length
  | .writeLockedCount => fun _ => 0
  | .readLockedCount => fun _ => 0

variable {call : LockCall} {body body' : call.Body} {locks locks' before : AccountLocks}
  {m m' n : ∀ i, LockedTable.Contents i} {result : LockResult}

theorem next_inl (h : call.next body m = .inl (body', m')) :
    ∃ locks, call.advance body (.ofTables m) = .inl (body', locks) ∧ m' = locks.tables := by
  rw [next] at h
  split at h
  · rename_i hAdvance
    cases h
    exact ⟨_, hAdvance, rfl⟩
  · cases h

theorem next_inr : call.next body m = .inr result ↔
    call.advance body (.ofTables m) = .inr result := by
  rw [next]
  constructor
  · intro h
    split at h
    · cases h
    · rename_i hAdvance
      cases h
      exact hAdvance
  · intro h
    rw [h]

theorem queryNext_inl {r : AccountSet} {b b' : CheckBody}
    (h : queryNext r locks b = .inl (b', locks')) :
    locks' = locks ∧ checkNext r locks b = .inl b' := by
  rw [queryNext] at h
  split at h
  · rename_i hCheck
    cases h
    exact ⟨rfl, hCheck⟩
  · cases h

theorem queryNext_inr {r : AccountSet} {b : CheckBody} (h : queryNext r locks b = .inr result) :
    ∃ verdict, checkNext r locks b = .inr verdict ∧ result = .conflict verdict := by
  rw [queryNext] at h
  split at h
  · cases h
  · rename_i hCheck
    cases h
    exact ⟨_, hCheck, rfl⟩

/-- Only `acquire` and `drop` change the tables. -/
theorem advance_frame (h : call.advance body locks = .inl (body', locks')) {i : LockedTable}
    (hi : ¬ (i ∈ call.locks ∧ call.exclusive i = true)) : locks' = locks := by
  cases call with
  | acquire writeAccounts readAccounts => exact absurd ⟨i.mem_both, rfl⟩ hi
  | drop held => exact absurd ⟨i.mem_both, rfl⟩ hi
  | wouldConflict writeAccounts readAccounts => exact (queryNext_inl h).1
  | writeLockedCount => cases h
  | readLockedCount => cases h

/-- A body of more than one step has locked both tables. -/
theorem mem_locks_of_advance (h : call.advance body locks = .inl (body', locks'))
    (i : LockedTable) : i ∈ call.locks := by
  cases call with
  | writeLockedCount => cases h
  | readLockedCount => cases h
  | _ => exact i.mem_both

theorem advance_lowers (h : call.advance body locks = .inl (body', locks')) :
    call.stepsLeft body' < call.stepsLeft body := by
  cases call with
  | acquire w r => exact acquireNext_lowers h
  | drop held => exact dropNext_lowers h
  | wouldConflict w r => exact checkNext_lowers (queryNext_inl h).2
  | writeLockedCount => cases h
  | readLockedCount => cases h

/-- What the operation has done when it has got this far. -/
def Reached : ∀ call : LockCall, AccountLocks → AccountLocks → call.Body → Prop
  | .acquire w r, locks, now, body => AcquireBody.Reached w r locks now body
  | .drop held, locks, now, body => DropBody.Reached held locks now body
  | .wouldConflict w r, locks, now, body => now = locks ∧ CheckBody.Reached w r locks body
  | _, locks, now, _ => now = locks

theorem reached_start (call : LockCall) (locks : AccountLocks) :
    call.Reached locks locks call.start := by
  cases call with
  | acquire w r => exact ⟨rfl, [], rfl, List.forall_mem_nil _⟩
  | drop held => exact ⟨[], rfl, congrArg₂ AccountLocks.mk (Finset.sdiff_empty).symm rfl⟩
  | wouldConflict w r => exact ⟨rfl, [], rfl, List.forall_mem_nil _⟩
  | writeLockedCount => rfl
  | readLockedCount => rfl

theorem reached_advance (h : call.Reached before locks body)
    (hNext : call.advance body locks = .inl (body', locks')) :
    call.Reached before locks' body' := by
  cases call with
  | acquire w r => exact acquire_reached h hNext
  | drop held => exact drop_reached h hNext
  | wouldConflict w r =>
    obtain ⟨rfl, hCheck⟩ := h
    obtain ⟨rfl, hInner⟩ := queryNext_inl hNext
    exact ⟨rfl, check_reached hCheck hInner⟩
  | writeLockedCount => cases hNext
  | readLockedCount => cases hNext

theorem run_of_ended (h : call.Reached before locks body)
    (hNext : call.advance body locks = .inr result) : call.run before = (locks, result) := by
  cases call with
  | acquire w r => exact acquire_ended h hNext
  | drop held => exact drop_ended h hNext
  | wouldConflict w r =>
    obtain ⟨rfl, hCheck⟩ := h
    obtain ⟨verdict, hInner, rfl⟩ := queryNext_inr hNext
    rw [run, check_ended hCheck hInner]
  | writeLockedCount =>
    cases hNext
    cases h
    rfl
  | readLockedCount =>
    cases hNext
    cases h
    rfl

end LockCall

/-- The operations on `AccountLocks`. `write_locked` is locked first. -/
def lockProgram : Program LockedTable.Contents LockCall LockCall.Body LockResult where
  rank
    | .write => 0
    | .read => 1
  locks := LockCall.locks
  exclusive := LockCall.exclusive
  start := LockCall.start
  next := LockCall.next
  stepsLeft := LockCall.stepsLeft
  sorted call := by cases call <;> simp [LockCall.locks]
  frame call body m body' m' h i hi := by
    obtain ⟨locks, hAdvance, rfl⟩ := LockCall.next_inl h
    rw [LockCall.advance_frame hAdvance hi, AccountLocks.tables_ofTables]
  congr_step call body m body' m' n h hSame := by
    obtain ⟨locks, hAdvance, rfl⟩ := LockCall.next_inl h
    have hEq : m = n := funext fun i => hSame i (LockCall.mem_locks_of_advance hAdvance i)
    exact ⟨locks.tables, hEq ▸ h, fun _ _ => rfl⟩
  congr_result call body m result n h hSame := by
    rw [LockCall.next_inr] at h ⊢
    cases call with
    | writeLockedCount =>
      have hWrite : (AccountLocks.ofTables m).writeLocked = (AccountLocks.ofTables n).writeLocked :=
        hSame .write List.mem_cons_self
      rw [LockCall.advance] at h ⊢
      rwa [hWrite] at h
    | readLockedCount =>
      have hRead : (AccountLocks.ofTables m).readLocked = (AccountLocks.ofTables n).readLocked :=
        hSame .read List.mem_cons_self
      rw [LockCall.advance] at h ⊢
      rwa [hRead] at h
    | _ =>
      have hEq : m = n := funext fun i => hSame i i.mem_both
      rwa [hEq] at h
  lowers call body m body' m' h := by
    obtain ⟨locks, hAdvance, -⟩ := LockCall.next_inl h
    exact LockCall.advance_lowers hAdvance

/-! ## Operations one after another -/

namespace LockCall

variable {call : LockCall} {calls : List LockCall} {body : call.Body}
  {m m' : ∀ i, LockedTable.Contents i} {locks locks' locks'' : AccountLocks} {result : LockResult}
  {results : List LockResult}

theorem reached_of_body (h : lockProgram.Body call m body m') :
    call.Reached (.ofTables m) (.ofTables m') body := by
  induction h with
  | start => exact reached_start call _
  | next _ hNext ih =>
    obtain ⟨locks, hAdvance, rfl⟩ := next_inl hNext
    exact reached_advance ih hAdvance

/-- An operation that runs alone does what it does as a single step. -/
theorem effect_run (h : lockProgram.Effect call m m' result) :
    call.run (.ofTables m) = (.ofTables m', result) := by
  obtain ⟨body, hBody, hNext⟩ := h
  exact run_of_ended (reached_of_body hBody) (next_inr.mp hNext)

/-- Operations in a row, with their results. -/
def runAll : List LockCall → AccountLocks → AccountLocks × List LockResult
  | [], locks => (locks, [])
  | call :: calls, locks =>
    let (locks, result) := call.run locks
    let (locks, results) := runAll calls locks
    (locks, result :: results)

theorem runAll_concat (h : runAll calls locks = (locks', results))
    (hRun : call.run locks' = (locks'', result)) :
    runAll (calls ++ [call]) locks = (locks'', results ++ [result]) := by
  induction calls generalizing locks results with
  | nil =>
    cases h
    simp only [List.nil_append, runAll, hRun]
  | cons first calls ih =>
    obtain ⟨after, first', hFirst⟩ : ∃ after first', first.run locks = (after, first') :=
      ⟨_, _, rfl⟩
    cases hRest : runAll calls after with
    | mk last rest =>
      simp only [runAll, hFirst, hRest] at h
      cases h
      simp only [List.cons_append, runAll, hFirst, ih hRest]

theorem runAll_of_replays {θ : Type} {history : List (Entry θ LockCall LockResult)}
    (h : Replays lockProgram m history m') :
    runAll (history.map Entry.call) (.ofTables m) =
      (.ofTables m', history.map Entry.result) := by
  induction h with
  | nil => rfl
  | concat _ hEffect ih =>
    rw [List.map_append, List.map_append]
    exact runAll_concat ih (effect_run hEffect)

/-- The guard that the operation consumes. -/
def consumes : LockCall → Multiset HeldGuard
  | .drop held => {held}
  | _ => 0

end LockCall

/-- The guard that the result brings. -/
def LockResult.guards : LockResult → Multiset HeldGuard
  | .acquired (.ok held) => {held}
  | _ => 0

/-- An operation on the tables of a session is a step of the session. -/
theorem Session.exists_of_run {session : Session} {call : LockCall} {locks : AccountLocks}
    {result : LockResult} {others : Multiset HeldGuard}
    (hSession : Reachable Session.step Session.init session)
    (hLive : (session.live : Multiset AccountLockGuard) =
      (call.consumes + others).map HeldGuard.guard)
    (hRun : call.run session.locks = (locks, result)) :
    ∃ session', Reachable Session.step Session.init session' ∧ session'.locks = locks ∧
      (session'.live : Multiset AccountLockGuard) =
        (result.guards + others).map HeldGuard.guard := by
  cases call with
  | acquire w r =>
    have hStep : Session.step session (.acquire w.toFinset r.toFinset) = some _ := rfl
    rcases AccountLockGuard.acquire_cases session.locks w.toFinset r.toFinset with
      ⟨-, hEq⟩ | ⟨-, hEq⟩
    · rw [LockCall.run, hEq] at hRun
      cases hRun
      rw [hEq] at hStep
      refine ⟨_, hSession.trans (Reachable.single hStep), rfl, ?_⟩
      rw [LockResult.guards, Multiset.singleton_add, Multiset.map_cons]
      change (session.live : Multiset AccountLockGuard) = (0 + others).map HeldGuard.guard at hLive
      rw [zero_add] at hLive
      rw [← hLive]
      rfl
    · rw [LockCall.run, hEq] at hRun
      cases hRun
      exact ⟨session, hSession, rfl, hLive⟩
  | drop held =>
    cases hRun
    rw [LockCall.consumes, Multiset.singleton_add, Multiset.map_cons] at hLive
    have hMem : held.guard ∈ session.live := by
      rw [← Multiset.mem_coe, hLive]
      exact Multiset.mem_cons_self _ _
    obtain ⟨i, hi, hGuard⟩ := List.getElem_of_mem hMem
    have hSome : session.live[i]? = some held.guard := by
      rw [← hGuard]
      exact List.getElem?_eq_getElem hi
    have hStep : Session.step session (.drop i) =
        some ⟨held.guard.drop session.locks, session.live.eraseIdx i⟩ := by
      rw [Session.step, hSome]
      rfl
    refine ⟨_, hSession.trans (Reachable.single hStep), rfl, ?_⟩
    have hPerm := Multiset.coe_eq_coe.mpr (List.getElem_cons_eraseIdx_perm hi)
    rw [hLive, hGuard, ← Multiset.cons_coe] at hPerm
    refine ((Multiset.cons_inj_right _).mp hPerm).trans ?_
    exact congrArg _ (zero_add others).symm
  | _ =>
    cases hRun
    exact ⟨session, hSession, rfl, hLive⟩

/-! ## Threads -/

/-- `live` are the guards that no operation of a thread has in its hands. -/
structure LockThreads (θ : Type) where
  state : State LockedTable.Contents θ LockCall LockCall.Body LockResult
  live : Multiset HeldGuard

namespace LockThreads

variable {θ : Type} [Fintype θ] [DecidableEq θ]

def init : LockThreads θ := ⟨State.init AccountLocks.new.tables, 0⟩

/-- A guard that is dropped must be alive. Who takes the result of an `acquire` has its guard. -/
def step (s : LockThreads θ) : State.Act θ LockCall → Option (LockThreads θ)
  | .call t call =>
    if call.consumes ≤ s.live then
      (s.state.step lockProgram (.call t call)).map fun state => ⟨state, s.live - call.consumes⟩
    else none
  | .proceed t => (s.state.proceed lockProgram t).map fun state => ⟨state, s.live⟩
  | .take t =>
    match s.state.threads t with
    | .returned _ result =>
      (s.state.step lockProgram (.take t)).map fun state => ⟨state, result.guards + s.live⟩
    | _ => none

/-- The guards that the operation of a thread has in its hands, as the tables see it: a guard to
be dropped until the body has ended, a new one from then on. -/
def pending : Pc LockedTable LockCall LockCall.Body LockResult → Multiset HeldGuard
  | .idle => 0
  | .locking call _ _ => call.consumes
  | .running call _ => call.consumes
  | .unlocking _ result _ => result.guards
  | .returned _ result => result.guards

def owned (s : LockThreads θ) : Multiset HeldGuard :=
  s.live + ∑ t, pending (s.state.threads t)

/-- The operations that have ended are a session, whose guards are owned by someone. -/
structure Inv (s : LockThreads θ) : Prop where
  locks : Foundation.CriticalSection.Inv lockProgram AccountLocks.new.tables s.state
  session : ∃ session, Reachable Session.step Session.init session ∧
    session.locks = .ofTables s.state.serial ∧
    (session.live : Multiset AccountLockGuard) = s.owned.map HeldGuard.guard

variable {s s' : LockThreads θ} {act : State.Act θ LockCall} {t : θ}

/-- What the other threads have in their hands. -/
def others (s : LockThreads θ) (t : θ) : Multiset HeldGuard :=
  ∑ u ∈ Finset.univ.erase t, pending (s.state.threads u)

theorem owned_eq (s : LockThreads θ) (t : θ) :
    s.owned = pending (s.state.threads t) + (s.live + s.others t) := by
  rw [owned, others, ← Finset.add_sum_erase _ _ (Finset.mem_univ t)]
  exact add_left_comm _ _ _

theorem owned_of_update {pc : Pc LockedTable LockCall LockCall.Body LockResult}
    (h : s'.state.threads = Function.update s.state.threads t pc) :
    s'.owned = pending pc + (s'.live + s.others t) := by
  rw [owned_eq s' t, h, Function.update_self]
  refine congrArg _ (congrArg _ (Finset.sum_congr rfl ?_))
  intro u hu
  rw [h, Function.update_of_ne (Finset.ne_of_mem_erase hu)]

theorem init_inv : Inv (init : LockThreads θ) where
  locks := State.init_inv _
  session := by
    refine ⟨Session.init, Reachable.refl _, rfl, ?_⟩
    have hNone : ∑ t, pending ((init : LockThreads θ).state.threads t) = 0 :=
      Finset.sum_eq_zero fun _ _ => rfl
    rw [owned, hNone]
    rfl

/-- The guards and the tables of the ended operations stay as they are. -/
theorem Inv.of_owned_eq (hs : Inv s)
    (hLocks : Foundation.CriticalSection.Inv lockProgram AccountLocks.new.tables s'.state)
    (hSerial : s'.state.serial = s.state.serial)
    (hOwned : s'.owned = s.owned) : Inv s' := by
  refine ⟨hLocks, ?_⟩
  rw [hSerial, hOwned]
  exact hs.session

theorem proceed_inv (hs : Inv s) {state : State LockedTable.Contents θ LockCall LockCall.Body
    LockResult} (h : s.state.proceed lockProgram t = some state) : Inv ⟨state, s.live⟩ := by
  have hStep : s.state.step lockProgram (.proceed t) = some state := h
  have hLocks := State.step_inv hs.locks hStep
  have hOwned := owned_eq s t
  cases State.step_cases hStep with
  | lock hPc hFree =>
    refine hs.of_owned_eq hLocks rfl ?_
    rw [owned_of_update rfl, hOwned, hPc]
    rfl
  | start hPc =>
    refine hs.of_owned_eq hLocks rfl ?_
    rw [owned_of_update rfl, hOwned, hPc]
    rfl
  | body hPc hNext =>
    refine hs.of_owned_eq hLocks rfl ?_
    rw [owned_of_update rfl, hOwned, hPc]
    rfl
  | finish hPc hNext =>
    obtain ⟨session, hSession, hTables, hLive⟩ := hs.session
    rw [hOwned, hPc] at hLive
    have hRun := LockCall.effect_run (State.effect_of_finish hs.locks hPc hNext)
    rw [← hTables] at hRun
    refine ⟨hLocks, ?_⟩
    rw [owned_of_update rfl]
    exact Session.exists_of_run hSession hLive hRun
  | unlock hPc =>
    refine hs.of_owned_eq hLocks rfl ?_
    rw [owned_of_update rfl, hOwned, hPc]
    rfl
  | leave hPc =>
    refine hs.of_owned_eq hLocks rfl ?_
    rw [owned_of_update rfl, hOwned, hPc]
    rfl

theorem step_inv (hs : Inv s) (h : step s act = some s') : Inv s' := by
  cases act with
  | call t call =>
    obtain ⟨hLive, hNext⟩ := Option.ite_none_right_eq_some.mp h
    obtain ⟨state, hStep, rfl⟩ := Option.map_eq_some_iff.mp hNext
    have hLocks := State.step_inv hs.locks hStep
    cases State.step_cases hStep with
    | call hPc =>
      refine hs.of_owned_eq hLocks rfl ?_
      rw [owned_of_update rfl, owned_eq s t, hPc, pending, pending, zero_add, ← add_assoc,
        add_tsub_cancel_of_le hLive]
  | proceed t =>
    obtain ⟨state, hProceed, rfl⟩ := Option.map_eq_some_iff.mp h
    exact proceed_inv hs hProceed
  | take t =>
    rw [step] at h
    split at h
    · rename_i call result hPc
      obtain ⟨state, hStep, rfl⟩ := Option.map_eq_some_iff.mp h
      have hLocks := State.step_inv hs.locks hStep
      cases State.step_cases hStep with
      | take _ =>
        refine hs.of_owned_eq hLocks rfl ?_
        rw [owned_of_update rfl, owned_eq s t, hPc, pending, pending, zero_add, add_assoc]
    · cases h

theorem reachable_inv (h : Reachable step init s) : Inv s :=
  h.invariant (fun _ _ _ hs hStep => step_inv hs hStep) init_inv

/-! ## Main result -/

/-- The tables are those of the guards. -/
def Owned (locks : AccountLocks) (guards : Multiset HeldGuard) : Prop :=
  locks.Summarizes (guards.map fun held => held.guard.writeAccounts)
    (guards.map fun held => held.guard.readAccounts)

/-- No body of an operation is running. -/
def Quiet (s : LockThreads θ) : Prop := ∀ t call body, s.state.threads t ≠ .running call body

/-- `replays`, `once`: the operations take effect one after another, each of them once between
its begin and its return, and return what they return in this order.
`quiet`, `idle`: apart from running bodies the tables are those of the guards.
`progress`, `bounded`: the threads cannot block each other for ever. -/
structure Linearizable (s : LockThreads θ) : Prop where
  replays : LockCall.runAll (s.state.history.map Entry.call) AccountLocks.new =
    (.ofTables s.state.serial, s.state.history.map Entry.result)
  once : ∀ t entries, (s.state.threads t).ended t = some entries → s.state.ownEntries t = entries
  exclusive : ∀ g h, g ::ₘ {h} ≤ s.owned → ¬ g.guard.Conflict h.guard
  quiet : s.Quiet → Owned (.ofTables s.state.tables) s.owned
  idle : (∀ t, s.state.threads t = .idle) → Owned (.ofTables s.state.tables) s.live
  progress : ∀ t, (s.state.threads t).inCall = true →
    (∃ u s', (s.state.threads u).wants = none ∧ step s (.proceed u) = some s') ∨
      ∃ i, (∀ u, i ∉ (s.state.threads u).held lockProgram) ∧
        (∃ u, (s.state.threads u).wants = some i) ∧
        ∀ u, (s.state.threads u).wants = some i → ∃ s', step s (.proceed u) = some s'
  bounded : ∀ t acts s', run step s acts = some s' → (∀ act ∈ acts, act.isCall t = false) →
    acts.countP (State.Act.isProceed t) ≤ (s.state.threads t).stepsLeft lockProgram

/-- The session of the ended operations keeps the guards apart. -/
theorem Inv.exclusive (hs : Inv s) {g h : HeldGuard} (hOwned : g ::ₘ {h} ≤ s.owned) :
    ¬ g.guard.Conflict h.guard := by
  obtain ⟨session, hSession, -, hLive⟩ := hs.session
  have hLe : ([g.guard, h.guard] : Multiset AccountLockGuard) ≤ session.live := by
    rw [hLive]
    exact Multiset.map_le_map hOwned
  obtain ⟨pair, hPerm, hSub⟩ := Multiset.coe_le.mp hLe
  have hPair := (Session.reachable_inv hSession).exclusive.sublist hSub
  have hSymm : ∀ {x y : AccountLockGuard}, ¬ x.Conflict y → ¬ y.Conflict x :=
    fun hNot hConflict => hNot hConflict.symm
  have hBoth := (hPerm.pairwise_iff hSymm).mp hPair
  exact (List.pairwise_cons.mp hBoth).1 h.guard List.mem_cons_self

theorem Inv.quiet (hs : Inv s) (hQuiet : s.Quiet) : Owned (.ofTables s.state.tables) s.owned := by
  obtain ⟨session, hSession, hTables, hLive⟩ := hs.session
  have hSame : s.state.tables = s.state.serial := by
    funext i
    apply hs.locks.rest i
    intro t hWriting
    cases hPc : s.state.threads t with
    | running call body => exact hQuiet t call body hPc
    | _ =>
      rw [hPc] at hWriting
      exact hWriting
  have hSum := (Session.reachable_inv hSession).tables
  have hWriters : Session.writers session.live =
      s.owned.map fun held => held.guard.writeAccounts := by
    rw [Session.writers, ← Multiset.map_coe, hLive, Multiset.map_map]
    rfl
  have hReaders : Session.readers session.live =
      s.owned.map fun held => held.guard.readAccounts := by
    rw [Session.readers, ← Multiset.map_coe, hLive, Multiset.map_map]
    rfl
  rw [hWriters, hReaders, hTables, ← hSame] at hSum
  exact hSum

theorem exists_step_of_proceed {u : θ} {state : State LockedTable.Contents θ LockCall
    LockCall.Body LockResult} (h : s.state.proceed lockProgram u = some state) :
    ∃ s', step s (.proceed u) = some s' :=
  ⟨⟨state, s.live⟩, by rw [step, h]; rfl⟩

/-- A step is one of the threads. -/
theorem state_step (h : step s act = some s') :
    s.state.step lockProgram act = some s'.state := by
  cases act with
  | call t call =>
    obtain ⟨-, hNext⟩ := Option.ite_none_right_eq_some.mp h
    obtain ⟨state, hStep, rfl⟩ := Option.map_eq_some_iff.mp hNext
    exact hStep
  | proceed t =>
    obtain ⟨state, hProceed, rfl⟩ := Option.map_eq_some_iff.mp h
    exact hProceed
  | take t =>
    rw [step] at h
    split at h
    · obtain ⟨state, hStep, rfl⟩ := Option.map_eq_some_iff.mp h
      exact hStep
    · cases h

theorem state_run {acts : List (State.Act θ LockCall)} (h : run step s acts = some s') :
    run (State.step lockProgram) s.state acts = some s'.state := by
  induction acts generalizing s with
  | nil =>
    cases h
    rfl
  | cons act acts ih =>
    obtain ⟨mid, hStep, hRest⟩ := run_cons_eq_some_iff.mp h
    exact run_cons_eq_some_iff.mpr ⟨mid.state, state_step hStep, ih hRest⟩

/-- In every run any number of threads see the tables as if each operation were a single step. -/
theorem reachable_linearizable (h : Reachable step init s) : Linearizable s := by
  have hs := reachable_inv h
  refine ⟨LockCall.runAll_of_replays hs.locks.replays, hs.locks.once, fun _ _ => hs.exclusive,
    hs.quiet, ?_, ?_, ?_⟩
  · intro hIdle
    have hOwned : s.owned = s.live := by
      have hNone : ∑ t, pending (s.state.threads t) = 0 := by
        refine Finset.sum_eq_zero ?_
        intro t _
        rw [hIdle t]
        rfl
      rw [owned, hNone, add_zero]
    rw [← hOwned]
    refine hs.quiet ?_
    intro t call body hPc
    rw [hIdle t] at hPc
    cases hPc
  · intro t hCall
    rcases State.progress hs.locks hCall with ⟨u, state, hWants, hGoes⟩ | ⟨i, hFree, hWaits, hGets⟩
    · obtain ⟨s', hStep⟩ := exists_step_of_proceed hGoes
      exact Or.inl ⟨u, s', hWants, hStep⟩
    · refine Or.inr ⟨i, hFree, hWaits, ?_⟩
      intro u hu
      obtain ⟨state, hGoes⟩ := hGets u hu
      exact exists_step_of_proceed hGoes
  · intro t acts s' hRun hActs
    exact State.countP_isProceed_le (state_run hRun) hActs

/-- Only account 1. -/
def accountOne : AccountSet := ⟨[Pubkey.filled 1], List.nodup_singleton _⟩

def noAccount : AccountSet := ⟨[], List.nodup_nil⟩

/-- Two threads want to write account 1. The second one asks in the middle of the `acquire` of
the first one. -/
def twoWriters : List (State.Act Bool LockCall) :=
  .call true (.acquire accountOne noAccount) :: List.replicate 4 (.proceed true) ++
    .call false (.acquire accountOne noAccount) :: List.replicate 8 (.proceed true) ++
    .take true :: List.replicate 7 (.proceed false)

theorem reachable_linearizable_twoWriters :
    Linearizable ((run step init twoWriters).getD init) :=
  reachable_linearizable ⟨twoWriters, by rfl⟩

example : ((run step init twoWriters).getD init).state.history.map Entry.result =
    [.acquired (.ok ⟨accountOne, noAccount⟩), .acquired (.error .lockAcquisitionFailed)] := by
  decide

end LockThreads

end Blunder
