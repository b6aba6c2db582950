import Blunder.Core.Basic
import Blunder.Foundation.LockTable
import Blunder.Foundation.Transition

/-!
# Account locks and their guards

`AccountLocks` keeps two tables: the set of write-locked accounts and, for each
read-locked account, the number of readers. `AccountLockGuard::acquire` checks the
tables and enters the guard's accounts; dropping the guard removes them. A session
is a sequence of acquires and drops, the guards dropped in any order.

* `Session.Inv`: the tables summarize the live guards and no two of them are in
  conflict; `step_inv` and `reachable_inv` show that it holds throughout.
* `reachable_tables`: the reading of the invariant in terms of single accounts.
-/

namespace Blunder

open Foundation.LockTable Foundation.Transition

/-! ## The tables -/

/-- `AccountLocks`. -/
structure AccountLocks where
  writeLocked : Finset Pubkey
  readLocked : CountTable Pubkey

/-- `AccountLockGuard`, without the reference to its tables. -/
structure AccountLockGuard where
  writeAccounts : Finset Pubkey
  readAccounts : Finset Pubkey
deriving DecidableEq

namespace AccountLocks

def new : AccountLocks := ⟨∅, ∅⟩

/-- New writes meet existing writes or reads. -/
def writesConflict (locks : AccountLocks) (writeAccounts : Finset Pubkey) : Prop :=
  ∃ acc ∈ writeAccounts, acc ∈ locks.writeLocked ∨ acc ∈ locks.readLocked

/-- New reads meet existing writes. -/
def readsConflict (locks : AccountLocks) (readAccounts : Finset Pubkey) : Prop :=
  ∃ acc ∈ readAccounts, acc ∈ locks.writeLocked

instance (locks : AccountLocks) (accounts : Finset Pubkey) :
    Decidable (locks.writesConflict accounts) :=
  inferInstanceAs (Decidable (∃ acc ∈ accounts, acc ∈ locks.writeLocked ∨ acc ∈ locks.readLocked))

instance (locks : AccountLocks) (accounts : Finset Pubkey) :
    Decidable (locks.readsConflict accounts) :=
  inferInstanceAs (Decidable (∃ acc ∈ accounts, acc ∈ locks.writeLocked))

/-- `AccountLocks::would_conflict`. -/
def wouldConflict (locks : AccountLocks) (writeAccounts readAccounts : Finset Pubkey) : Bool :=
  if locks.writesConflict writeAccounts then true
  else if locks.readsConflict readAccounts then true
  else false

/-- Enter the accounts of a guard. -/
def retain (locks : AccountLocks) (guard : AccountLockGuard) : AccountLocks where
  writeLocked := locks.writeLocked ∪ guard.writeAccounts
  readLocked := incrementAll locks.readLocked guard.readAccounts

end AccountLocks

namespace AccountLockGuard

/-- `AccountLockGuard::acquire`, with the tables it leaves. -/
def acquire (locks : AccountLocks) (writeAccounts readAccounts : Finset Pubkey) :
    AccountLocks × Except MevError AccountLockGuard :=
  if locks.writesConflict writeAccounts then (locks, .error .lockAcquisitionFailed)
  else if locks.readsConflict readAccounts then (locks, .error .lockAcquisitionFailed)
  else (locks.retain ⟨writeAccounts, readAccounts⟩, .ok ⟨writeAccounts, readAccounts⟩)

/-- `AccountLockGuard::acquire_all_as_write`. -/
def acquireAllAsWrite (locks : AccountLocks) (accounts : Finset Pubkey) :
    AccountLocks × Except MevError AccountLockGuard :=
  acquire locks accounts ∅

/-- `Drop for AccountLockGuard`. -/
def drop (guard : AccountLockGuard) (locks : AccountLocks) : AccountLocks where
  writeLocked := locks.writeLocked \ guard.writeAccounts
  readLocked := decrementAll locks.readLocked guard.readAccounts

/-- Two guards that may not be alive together: a write of one meets a write or a
read of the other. -/
def Conflict (g h : AccountLockGuard) : Prop :=
  ¬ (Disjoint g.writeAccounts h.writeAccounts ∧ Disjoint g.writeAccounts h.readAccounts ∧
    Disjoint g.readAccounts h.writeAccounts)

theorem Conflict.symm {g h : AccountLockGuard} (hc : Conflict g h) : Conflict h g := by
  intro ⟨hww, hwr, hrw⟩
  exact hc ⟨hww.symm, hrw.symm, hwr.symm⟩

end AccountLockGuard

/-- A request is free of conflicts with the tables. -/
def AccountLocks.Free (locks : AccountLocks) (writeAccounts readAccounts : Finset Pubkey) : Prop :=
  ¬ locks.writesConflict writeAccounts ∧ ¬ locks.readsConflict readAccounts

theorem AccountLocks.wouldConflict_eq_false_iff {locks : AccountLocks}
    {writeAccounts readAccounts : Finset Pubkey} :
    locks.wouldConflict writeAccounts readAccounts = false ↔
      locks.Free writeAccounts readAccounts := by
  unfold AccountLocks.wouldConflict AccountLocks.Free
  split
  · simp_all
  · split <;> simp_all

/-- What `acquire` does, by the verdict of its two checks. -/
theorem AccountLockGuard.acquire_cases (locks : AccountLocks)
    (writeAccounts readAccounts : Finset Pubkey) :
    locks.Free writeAccounts readAccounts ∧
        AccountLockGuard.acquire locks writeAccounts readAccounts =
          (locks.retain ⟨writeAccounts, readAccounts⟩, .ok ⟨writeAccounts, readAccounts⟩) ∨
      ¬ locks.Free writeAccounts readAccounts ∧
        AccountLockGuard.acquire locks writeAccounts readAccounts =
          (locks, .error .lockAcquisitionFailed) := by
  unfold AccountLockGuard.acquire AccountLocks.Free
  by_cases hWrite : locks.writesConflict writeAccounts
  · exact Or.inr ⟨fun h => h.1 hWrite, if_pos hWrite⟩
  · by_cases hRead : locks.readsConflict readAccounts
    · exact Or.inr ⟨fun h => h.2 hRead, by rw [if_neg hWrite, if_pos hRead]⟩
    · exact Or.inl ⟨⟨hWrite, hRead⟩, by rw [if_neg hWrite, if_neg hRead]⟩

/-! ## Tables and holders -/

/-- The tables are those of the given write and read holders. -/
structure AccountLocks.Summarizes (locks : AccountLocks)
    (writers readers : Multiset (Finset Pubkey)) : Prop where
  write : Exclusive locks.writeLocked writers
  read : Counted locks.readLocked readers

namespace AccountLocks.Summarizes

variable {locks : AccountLocks} {writers readers : Multiset (Finset Pubkey)}
  {guard : AccountLockGuard}

theorem new : AccountLocks.new.Summarizes 0 0 :=
  ⟨Exclusive.zero_iff.mpr rfl, Counted.zero_iff.mpr rfl⟩

theorem eq_new (h : locks.Summarizes 0 0) : locks = AccountLocks.new := by
  obtain ⟨writeLocked, readLocked⟩ := locks
  exact congrArg₂ AccountLocks.mk (Exclusive.zero_iff.mp h.write) (Counted.zero_iff.mp h.read)

/-- A request is free exactly when no write holder meets it and no read holder meets
its writes. -/
theorem free_iff (h : locks.Summarizes writers readers) :
    locks.Free guard.writeAccounts guard.readAccounts ↔
      (∀ w ∈ writers, Disjoint guard.writeAccounts w) ∧
      (∀ r ∈ readers, Disjoint guard.writeAccounts r) ∧
      ∀ w ∈ writers, Disjoint guard.readAccounts w := by
  simp only [AccountLocks.Free, AccountLocks.writesConflict, AccountLocks.readsConflict,
    h.write.mem_iff, h.read.mem_iff, Finset.disjoint_left]
  push Not
  constructor
  · rintro ⟨hWrite, hRead⟩
    exact ⟨fun w hw acc hacc => (hWrite acc hacc).1 w hw,
      fun r hr acc hacc => (hWrite acc hacc).2 r hr, fun w hw acc hacc => hRead acc hacc w hw⟩
  · rintro ⟨hww, hwr, hrw⟩
    exact ⟨fun acc hacc => ⟨fun w hw => hww w hw hacc, fun r hr => hwr r hr hacc⟩,
      fun acc hacc w hw => hrw w hw hacc⟩

theorem retain (h : locks.Summarizes writers readers) (guard : AccountLockGuard)
    (hFree : locks.Free guard.writeAccounts guard.readAccounts) :
    (locks.retain guard).Summarizes (guard.writeAccounts ::ₘ writers)
      (guard.readAccounts ::ₘ readers) := by
  refine ⟨h.write.acquire ?_, h.read.acquire _⟩
  rw [Finset.disjoint_left]
  intro acc hacc hLocked
  exact hFree.1 ⟨acc, hacc, Or.inl hLocked⟩

theorem drop (h : locks.Summarizes (guard.writeAccounts ::ₘ writers)
    (guard.readAccounts ::ₘ readers)) : (guard.drop locks).Summarizes writers readers :=
  ⟨h.write.release, h.read.release⟩

end AccountLocks.Summarizes

/-! ## Sessions -/

/-- The tables together with the guards that are alive. -/
structure Session where
  locks : AccountLocks
  live : List AccountLockGuard

namespace Session

/-- An operation on the tables. `drop i` drops the live guard at position `i`. -/
inductive Op
  | acquire (writeAccounts readAccounts : Finset Pubkey)
  | acquireAllAsWrite (accounts : Finset Pubkey)
  | drop (i : ℕ)

/-- `AccountLocks::new`, with no guard alive. -/
def init : Session := ⟨AccountLocks.new, []⟩

/-- A successful acquire hands out one more guard. -/
def handOut (live : List AccountLockGuard) :
    AccountLocks × Except MevError AccountLockGuard → Session
  | (locks, .ok guard) => ⟨locks, guard :: live⟩
  | (locks, .error _) => ⟨locks, live⟩

def step (s : Session) : Op → Option Session
  | .acquire writeAccounts readAccounts =>
    some (handOut s.live (AccountLockGuard.acquire s.locks writeAccounts readAccounts))
  | .acquireAllAsWrite accounts =>
    some (handOut s.live (AccountLockGuard.acquireAllAsWrite s.locks accounts))
  | .drop i => s.live[i]?.map fun guard => ⟨guard.drop s.locks, s.live.eraseIdx i⟩

/-- What the live guards write. -/
def writers (live : List AccountLockGuard) : Multiset (Finset Pubkey) :=
  live.map AccountLockGuard.writeAccounts

/-- What the live guards read. -/
def readers (live : List AccountLockGuard) : Multiset (Finset Pubkey) :=
  live.map AccountLockGuard.readAccounts

/-- The tables summarize the live guards, no two of which are in conflict. -/
structure Inv (s : Session) : Prop where
  tables : s.locks.Summarizes (writers s.live) (readers s.live)
  exclusive : s.live.Pairwise fun g h => ¬ g.Conflict h

theorem init_inv : Inv init := ⟨AccountLocks.Summarizes.new, List.Pairwise.nil⟩

/-- A request is free exactly when it is in conflict with no live guard. -/
theorem Inv.free_iff {s : Session} (hs : Inv s) (guard : AccountLockGuard) :
    s.locks.Free guard.writeAccounts guard.readAccounts ↔ ∀ g ∈ s.live, ¬ guard.Conflict g := by
  rw [hs.tables.free_iff]
  simp only [writers, readers, Multiset.mem_coe, List.forall_mem_map, AccountLockGuard.Conflict,
    not_not]
  constructor
  · rintro ⟨hww, hwr, hrw⟩ g hg
    exact ⟨hww g hg, hwr g hg, hrw g hg⟩
  · intro h
    exact ⟨fun g hg => (h g hg).1, fun g hg => (h g hg).2.1, fun g hg => (h g hg).2.2⟩

theorem Inv.acquire {s : Session} (hs : Inv s) (writeAccounts readAccounts : Finset Pubkey) :
    Inv (handOut s.live (AccountLockGuard.acquire s.locks writeAccounts readAccounts)) := by
  rcases AccountLockGuard.acquire_cases s.locks writeAccounts readAccounts with
    ⟨hFree, hEq⟩ | ⟨-, hEq⟩
  · rw [hEq]
    have hLive := (hs.free_iff ⟨writeAccounts, readAccounts⟩).mp hFree
    exact ⟨hs.tables.retain ⟨writeAccounts, readAccounts⟩ hFree,
      List.pairwise_cons.mpr ⟨hLive, hs.exclusive⟩⟩
  · rw [hEq]
    exact hs

/-- A drop puts its guard first and removes it: the order of the live guards is
irrelevant to the tables. -/
theorem Inv.drop {s : Session} (hs : Inv s) {i : ℕ} {guard : AccountLockGuard}
    (hi : s.live[i]? = some guard) : Inv ⟨guard.drop s.locks, s.live.eraseIdx i⟩ := by
  obtain ⟨hLt, rfl⟩ := List.getElem?_eq_some_iff.mp hi
  have hPerm : s.live.Perm (s.live[i] :: s.live.eraseIdx i) :=
    (List.getElem_cons_eraseIdx_perm hLt).symm
  have hWriters : writers s.live = s.live[i].writeAccounts ::ₘ writers (s.live.eraseIdx i) :=
    Multiset.coe_eq_coe.mpr (hPerm.map _)
  have hReaders : readers s.live = s.live[i].readAccounts ::ₘ readers (s.live.eraseIdx i) :=
    Multiset.coe_eq_coe.mpr (hPerm.map _)
  have hTables := hs.tables
  rw [hWriters, hReaders] at hTables
  exact ⟨hTables.drop, hs.exclusive.sublist (List.eraseIdx_sublist ..)⟩

theorem step_inv {s s' : Session} {op : Op} (hs : Inv s) (h : step s op = some s') : Inv s' := by
  cases op with
  | acquire writeAccounts readAccounts =>
    cases h
    exact hs.acquire writeAccounts readAccounts
  | acquireAllAsWrite accounts =>
    cases h
    exact hs.acquire accounts ∅
  | drop i =>
    obtain ⟨guard, hi, rfl⟩ := Option.map_eq_some_iff.mp h
    exact hs.drop hi

theorem reachable_inv {s : Session} (h : Reachable step init s) : Inv s :=
  h.invariant (fun _ _ _ hs hStep => step_inv hs hStep) init_inv

/-- The number of live guards that read an account. -/
def readerCount (live : List AccountLockGuard) (acc : Pubkey) : ℕ :=
  live.countP fun g => decide (acc ∈ g.readAccounts)

theorem ownerCount_readers (live : List AccountLockGuard) (acc : Pubkey) :
    ownerCount (readers live) acc = readerCount live acc := by
  rw [readers, ownerCount, Multiset.coe_countP, List.countP_map]
  rfl

/-! ## Main result -/

/-- In every reachable session the write table is the union of the live guards' write
sets, the read table counts the live readers of each account and has no entry at zero,
no account is written by one live guard and written or read by another, and both
tables are empty once no guard is alive. -/
theorem reachable_tables {s : Session} (h : Reachable step init s) :
    (∀ acc, acc ∈ s.locks.writeLocked ↔ ∃ g ∈ s.live, acc ∈ g.writeAccounts) ∧
    (∀ acc, s.locks.readLocked.lookup acc =
      if readerCount s.live acc = 0 then none else some (readerCount s.live acc)) ∧
    (∀ acc count, s.locks.readLocked.lookup acc = some count → 1 ≤ count) ∧
    s.live.Pairwise (fun g h => Disjoint g.writeAccounts h.writeAccounts ∧
      Disjoint g.writeAccounts h.readAccounts ∧ Disjoint g.readAccounts h.writeAccounts) ∧
    (s.live = [] → s.locks.writeLocked = ∅ ∧ s.locks.readLocked = ∅) := by
  have hs := reachable_inv h
  refine ⟨?_, ?_, ?_, ?_, ?_⟩
  · intro acc
    rw [hs.tables.write.mem_iff]
    simp [writers]
  · intro acc
    rw [hs.tables.read acc, ownerCount_readers]
    rfl
  · intro acc count hCount
    exact hs.tables.read.pos hCount
  · exact hs.exclusive.imp fun hc => not_not.mp hc
  · intro hLive
    have hTables := hs.tables
    rw [hLive] at hTables
    rw [hTables.eq_new]
    exact ⟨rfl, rfl⟩

/-- One guard writes account 1 and reads account 2, another one reads account 2. -/
def twoReaders : List Op :=
  [.acquire {Pubkey.filled 1} {Pubkey.filled 2}, .acquire ∅ {Pubkey.filled 2}]

theorem reachable_tables_twoReaders :
    (((run step init twoReaders).getD init).locks.readLocked.lookup (Pubkey.filled 2)) = some 2 :=
  (reachable_tables ⟨twoReaders, by rfl⟩).2.1 (Pubkey.filled 2)

end Session

end Blunder
