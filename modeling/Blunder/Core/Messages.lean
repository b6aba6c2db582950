import Blunder.Core.LockGuard
import Mathlib.Data.Fintype.Basic
import Mathlib.Data.List.FinRange

/-!
# Bloom filters and the hybrid conflict test

`compute_bloom_filter` sets one bit for each account and each of three seeds in 16
words of 64 bits. The hash of a seed and an account is a parameter: nothing below
depends on it. The hybrid tests first compare the filters and only then the sets.

* `bloomsMightConflict_of_common`: filters over lists with a common account meet.
* `hybrid_exact`: both hybrid tests agree with the exact ones.
* `accountsConflictHybridRw_iff`: with each filter computed over all accounts of
  its owner, the read/write test is exactly `AccountLockGuard.Conflict`.
* `acquire_iff_no_hybrid_conflict`: `AccountLockGuard::acquire`, `would_conflict` and
  the pairwise hybrid test against every live guard give the same verdict.
-/

namespace Blunder

open Foundation.Transition

/-! ## Filters -/

/-- `BLOOM_FILTER_SIZE`. -/
def bloomFilterSize : ℕ := 16

/-- `BloomFilter`, `[u64; BLOOM_FILTER_SIZE]`. -/
abbrev BloomFilter := Fin bloomFilterSize → UInt64

/-- `DefaultHasher` fed with a seed and an account. -/
abbrev BloomHash := Fin 3 → Pubkey → UInt64

/-- The word of a hash: its low half modulo the number of words. -/
def wordIndex (hash : UInt64) : Fin bloomFilterSize :=
  ⟨hash.toUInt32.toNat % bloomFilterSize, Nat.mod_lt _ (by decide)⟩

/-- The bit of a hash: its high half modulo 64. -/
def bitMask (hash : UInt64) : UInt64 := (1 : UInt64) <<< ((hash >>> 32) % 64)

/-- `bloom[word_index] |= 1u64 << bit_index`. -/
def setBit (bloom : BloomFilter) (hash : UInt64) : BloomFilter :=
  Function.update bloom (wordIndex hash) (bloom (wordIndex hash) ||| bitMask hash)

/-- `compute_bloom_filter`. -/
def computeBloomFilter (hasher : BloomHash) (accounts : List Pubkey) : BloomFilter :=
  (accounts.flatMap fun account => (List.finRange 3).map fun seed => hasher seed account).foldl
    setBit fun _ => 0

/-- `blooms_might_conflict`. -/
def bloomsMightConflict (a b : BloomFilter) : Bool :=
  decide (∃ i, a i &&& b i ≠ 0)

/-- `accounts_conflict_hybrid_rw`. -/
def accountsConflictHybridRw (bloomA : BloomFilter) (writeA readA : Finset Pubkey)
    (bloomB : BloomFilter) (writeB readB : Finset Pubkey) : Bool :=
  if !bloomsMightConflict bloomA bloomB then false
  else if ¬ Disjoint writeA writeB then true
  else if ¬ Disjoint writeA readB ∨ ¬ Disjoint readA writeB then true
  else false

/-- `accounts_conflict_hybrid`. -/
def accountsConflictHybrid (bloomA : BloomFilter) (accountsA : Finset Pubkey)
    (bloomB : BloomFilter) (accountsB : Finset Pubkey) : Bool :=
  if !bloomsMightConflict bloomA bloomB then false
  else decide (¬ Disjoint accountsA accountsB)

/-! ## No false negatives -/

/-- The bit of a hash is set. -/
def HasBit (bloom : BloomFilter) (hash : UInt64) : Prop :=
  bloom (wordIndex hash) &&& bitMask hash = bitMask hash

theorem or_and_self_right (word mask : UInt64) : (word ||| mask) &&& mask = mask := by
  apply UInt64.toBitVec_inj.mp
  ext i hi
  simp only [UInt64.toBitVec_and, UInt64.toBitVec_or, BitVec.getElem_and, BitVec.getElem_or]
  cases word.toBitVec[i] <;> cases mask.toBitVec[i] <;> rfl

theorem or_and_of_and {word mask bit : UInt64} (h : word &&& bit = bit) :
    (word ||| mask) &&& bit = bit := by
  apply UInt64.toBitVec_inj.mp
  have hWord := UInt64.toBitVec_inj.mpr h
  ext i hi
  have hBit := congrArg (fun v => v[i]) hWord
  simp only [UInt64.toBitVec_and, UInt64.toBitVec_or, BitVec.getElem_and,
    BitVec.getElem_or] at hBit ⊢
  revert hBit
  cases word.toBitVec[i] <;> cases bit.toBitVec[i] <;> simp

/-- The shift stays inside the word. -/
theorem bitMask_ne_zero (hash : UInt64) : bitMask hash ≠ 0 := by
  intro h
  have hShift : ((hash >>> 32) % 64).toNat < 64 := by
    rw [UInt64.toNat_mod]
    exact Nat.mod_lt _ (by decide)
  have hNat := congrArg UInt64.toNat h
  rw [bitMask, UInt64.toNat_shiftLeft, Nat.mod_eq_of_lt hShift, UInt64.toNat_one,
    Nat.one_shiftLeft, Nat.mod_eq_of_lt (Nat.pow_lt_pow_right (by omega) hShift)] at hNat
  exact absurd hNat (Nat.two_pow_pos _).ne'

theorem hasBit_setBit (bloom : BloomFilter) (hash : UInt64) : HasBit (setBit bloom hash) hash := by
  rw [HasBit, setBit, Function.update_self]
  exact or_and_self_right _ _

theorem HasBit.setBit {bloom : BloomFilter} {hash : UInt64} (h : HasBit bloom hash)
    (other : UInt64) : HasBit (Blunder.setBit bloom other) hash := by
  rw [HasBit, Blunder.setBit]
  by_cases hWord : wordIndex hash = wordIndex other
  · rw [hWord, Function.update_self]
    rw [HasBit, hWord] at h
    exact or_and_of_and h
  · rw [Function.update_of_ne hWord]
    exact h

theorem HasBit.foldl {bloom : BloomFilter} {hash : UInt64} (h : HasBit bloom hash)
    (hashes : List UInt64) : HasBit (hashes.foldl Blunder.setBit bloom) hash := by
  induction hashes generalizing bloom with
  | nil => exact h
  | cons other hashes ih => exact ih (h.setBit other)

theorem hasBit_foldl_of_mem {hashes : List UInt64} {hash : UInt64} (h : hash ∈ hashes)
    (bloom : BloomFilter) : HasBit (hashes.foldl setBit bloom) hash := by
  induction hashes generalizing bloom with
  | nil => simp at h
  | cons other hashes ih =>
    rcases List.mem_cons.mp h with rfl | h
    · exact (hasBit_setBit bloom hash).foldl hashes
    · exact ih h _

theorem hasBit_computeBloomFilter {hasher : BloomHash} {accounts : List Pubkey}
    {account : Pubkey} (h : account ∈ accounts) (seed : Fin 3) :
    HasBit (computeBloomFilter hasher accounts) (hasher seed account) := by
  refine hasBit_foldl_of_mem ?_ _
  exact List.mem_flatMap.mpr ⟨account, h, List.mem_map.mpr ⟨seed, List.mem_finRange seed, rfl⟩⟩

/-- Filters with a common bit meet. -/
theorem bloomsMightConflict_of_hasBit {a b : BloomFilter} {hash : UInt64} (ha : HasBit a hash)
    (hb : HasBit b hash) : bloomsMightConflict a b = true := by
  refine decide_eq_true ⟨wordIndex hash, ?_⟩
  intro hZero
  apply bitMask_ne_zero hash
  calc bitMask hash = a (wordIndex hash) &&& bitMask hash := ha.symm
    _ = a (wordIndex hash) &&& (b (wordIndex hash) &&& bitMask hash) := by rw [hb]
    _ = (a (wordIndex hash) &&& b (wordIndex hash)) &&& bitMask hash := (UInt64.and_assoc _ _ _).symm
    _ = 0 := by rw [hZero, UInt64.zero_and]

theorem bloomsMightConflict_of_common {hasher : BloomHash} {as bs : List Pubkey}
    {account : Pubkey} (ha : account ∈ as) (hb : account ∈ bs) :
    bloomsMightConflict (computeBloomFilter hasher as) (computeBloomFilter hasher bs) = true :=
  bloomsMightConflict_of_hasBit (hasBit_computeBloomFilter ha 0) (hasBit_computeBloomFilter hb 0)

/-! ## The hybrid test -/

/-- The list covers all accounts of a guard. -/
def AccountLockGuard.Covers (guard : AccountLockGuard) (accounts : List Pubkey) : Prop :=
  ∀ acc, acc ∈ accounts ↔ acc ∈ guard.writeAccounts ∨ acc ∈ guard.readAccounts

/-- Guards in conflict have a common account. -/
theorem AccountLockGuard.Conflict.exists_common {g h : AccountLockGuard} (hc : g.Conflict h)
    {as bs : List Pubkey} (ha : g.Covers as) (hb : h.Covers bs) : ∃ acc, acc ∈ as ∧ acc ∈ bs := by
  simp only [AccountLockGuard.Conflict, not_and_or, Finset.not_disjoint_iff] at hc
  rcases hc with ⟨acc, hg, hh⟩ | ⟨acc, hg, hh⟩ | ⟨acc, hg, hh⟩
  · exact ⟨acc, (ha acc).mpr (Or.inl hg), (hb acc).mpr (Or.inl hh)⟩
  · exact ⟨acc, (ha acc).mpr (Or.inl hg), (hb acc).mpr (Or.inr hh)⟩
  · exact ⟨acc, (ha acc).mpr (Or.inr hg), (hb acc).mpr (Or.inl hh)⟩

/-- The filters only reject pairs without a common account, so the hybrid test is the
exact one. -/
theorem accountsConflictHybridRw_iff (hasher : BloomHash) {g h : AccountLockGuard}
    {as bs : List Pubkey} (ha : g.Covers as) (hb : h.Covers bs) :
    accountsConflictHybridRw (computeBloomFilter hasher as) g.writeAccounts g.readAccounts
      (computeBloomFilter hasher bs) h.writeAccounts h.readAccounts = true ↔ g.Conflict h := by
  have hFilter : g.Conflict h →
      bloomsMightConflict (computeBloomFilter hasher as) (computeBloomFilter hasher bs) = true := by
    intro hc
    obtain ⟨acc, haAcc, hbAcc⟩ := hc.exists_common ha hb
    exact bloomsMightConflict_of_common haAcc hbAcc
  unfold accountsConflictHybridRw
  split
  · rename_i hApart
    refine ⟨fun hFalse => (Bool.false_ne_true hFalse).elim, fun hc => ?_⟩
    rw [hFilter hc] at hApart
    cases hApart
  · by_cases hww : Disjoint g.writeAccounts h.writeAccounts <;>
      by_cases hwr : Disjoint g.writeAccounts h.readAccounts <;>
      by_cases hrw : Disjoint g.readAccounts h.writeAccounts <;>
      simp [AccountLockGuard.Conflict, hww, hwr, hrw]

theorem accountsConflictHybrid_iff (hasher : BloomHash) (as bs : List Pubkey) :
    accountsConflictHybrid (computeBloomFilter hasher as) as.toFinset
      (computeBloomFilter hasher bs) bs.toFinset = true ↔ ∃ acc, acc ∈ as ∧ acc ∈ bs := by
  have hShare : ¬ Disjoint as.toFinset bs.toFinset ↔ ∃ acc, acc ∈ as ∧ acc ∈ bs := by
    simp only [Finset.not_disjoint_iff, List.mem_toFinset]
  unfold accountsConflictHybrid
  split
  · rename_i hApart
    refine ⟨fun hFalse => (Bool.false_ne_true hFalse).elim, ?_⟩
    rintro ⟨acc, ha, hb⟩
    rw [bloomsMightConflict_of_common ha hb] at hApart
    cases hApart
  · rw [decide_eq_true_iff]
    exact hShare

theorem conflict_iff_exists {g h : AccountLockGuard} : g.Conflict h ↔
    (∃ acc ∈ g.writeAccounts, acc ∈ h.writeAccounts ∨ acc ∈ h.readAccounts) ∨
      ∃ acc ∈ h.writeAccounts, acc ∈ g.writeAccounts ∨ acc ∈ g.readAccounts := by
  simp only [AccountLockGuard.Conflict, not_and_or, Finset.not_disjoint_iff]
  constructor
  · rintro (⟨acc, hg, hh⟩ | ⟨acc, hg, hh⟩ | ⟨acc, hg, hh⟩)
    · exact Or.inl ⟨acc, hg, Or.inl hh⟩
    · exact Or.inl ⟨acc, hg, Or.inr hh⟩
    · exact Or.inr ⟨acc, hh, Or.inr hg⟩
  · rintro (⟨acc, hg, hh | hh⟩ | ⟨acc, hh, hg | hg⟩)
    · exact Or.inl ⟨acc, hg, hh⟩
    · exact Or.inr (Or.inl ⟨acc, hg, hh⟩)
    · exact Or.inl ⟨acc, hg, hh⟩
    · exact Or.inr (Or.inr ⟨acc, hg, hh⟩)

/-- The hybrid tests are the exact ones: a common account, and a write set that meets
the accounts of the other side. -/
theorem hybrid_exact (hasher : BloomHash) :
    (∀ as bs : List Pubkey, accountsConflictHybrid (computeBloomFilter hasher as) as.toFinset
        (computeBloomFilter hasher bs) bs.toFinset = true ↔ ∃ acc, acc ∈ as ∧ acc ∈ bs) ∧
      ∀ (writeA readA writeB readB : Finset Pubkey) (as bs : List Pubkey),
        as.toFinset = writeA ∪ readA → bs.toFinset = writeB ∪ readB →
        (accountsConflictHybridRw (computeBloomFilter hasher as) writeA readA
            (computeBloomFilter hasher bs) writeB readB = true ↔
          (∃ acc ∈ writeA, acc ∈ writeB ∨ acc ∈ readB) ∨
            ∃ acc ∈ writeB, acc ∈ writeA ∨ acc ∈ readA) := by
  refine ⟨accountsConflictHybrid_iff hasher, ?_⟩
  intro writeA readA writeB readB as bs hAs hBs
  have hCoversA : AccountLockGuard.Covers ⟨writeA, readA⟩ as := by
    intro acc
    rw [← List.mem_toFinset, hAs, Finset.mem_union]
  have hCoversB : AccountLockGuard.Covers ⟨writeB, readB⟩ bs := by
    intro acc
    rw [← List.mem_toFinset, hBs, Finset.mem_union]
  exact (accountsConflictHybridRw_iff hasher hCoversA hCoversB).trans conflict_iff_exists

/-- A reader and a writer of account 1, on a hash that maps all accounts to one bit. -/
theorem hybrid_exact_readWrite :
    let bloom := computeBloomFilter (fun _ _ => 0) [Pubkey.filled 1]
    accountsConflictHybridRw bloom ∅ {Pubkey.filled 1} bloom {Pubkey.filled 1} ∅ = true := by
  intro bloom
  refine ((hybrid_exact fun _ _ => 0).2 ∅ {Pubkey.filled 1} {Pubkey.filled 1} ∅
    [Pubkey.filled 1] [Pubkey.filled 1] rfl rfl).mpr (Or.inr ?_)
  exact ⟨Pubkey.filled 1, Finset.mem_singleton_self _, Or.inr (Finset.mem_singleton_self _)⟩

/-! ## Main result -/

/-- In every reachable session and for every request: `acquire` succeeds exactly when
the hybrid test of the request against each live guard is negative, `would_conflict`
gives the same verdict, and a failing `acquire` leaves the tables as they were. -/
theorem acquire_iff_no_hybrid_conflict {s : Session} (h : Reachable Session.step Session.init s)
    (hasher : BloomHash) (request : AccountLockGuard) (requestAccounts : List Pubkey)
    (accountsOf : AccountLockGuard → List Pubkey) (hRequest : request.Covers requestAccounts)
    (hAccounts : ∀ g ∈ s.live, g.Covers (accountsOf g)) :
    ((∃ locks guard, AccountLockGuard.acquire s.locks request.writeAccounts request.readAccounts =
        (locks, .ok guard)) ↔
      ∀ g ∈ s.live, accountsConflictHybridRw
        (computeBloomFilter hasher requestAccounts) request.writeAccounts request.readAccounts
        (computeBloomFilter hasher (accountsOf g)) g.writeAccounts g.readAccounts = false) ∧
    (s.locks.wouldConflict request.writeAccounts request.readAccounts = false ↔
      ∃ locks guard, AccountLockGuard.acquire s.locks request.writeAccounts request.readAccounts =
        (locks, .ok guard)) ∧
    (∀ locks e, AccountLockGuard.acquire s.locks request.writeAccounts request.readAccounts =
      (locks, .error e) → locks = s.locks) := by
  have hs := Session.reachable_inv h
  have hHybrid : (∀ g ∈ s.live, accountsConflictHybridRw
        (computeBloomFilter hasher requestAccounts) request.writeAccounts request.readAccounts
        (computeBloomFilter hasher (accountsOf g)) g.writeAccounts g.readAccounts = false) ↔
      s.locks.Free request.writeAccounts request.readAccounts := by
    rw [hs.free_iff request]
    apply forall₂_congr
    intro g hg
    rw [← accountsConflictHybridRw_iff hasher hRequest (hAccounts g hg),
      Bool.not_eq_true]
  have hVerdict : (∃ locks guard, AccountLockGuard.acquire s.locks request.writeAccounts
        request.readAccounts = (locks, .ok guard)) ↔
      s.locks.Free request.writeAccounts request.readAccounts := by
    rcases AccountLockGuard.acquire_cases s.locks request.writeAccounts request.readAccounts with
      ⟨hFree, hEq⟩ | ⟨hBusy, hEq⟩
    · simp [hEq, hFree]
    · simp [hEq, hBusy]
  refine ⟨hVerdict.trans hHybrid.symm,
    AccountLocks.wouldConflict_eq_false_iff.trans hVerdict.symm, ?_⟩
  intro locks e hEq
  rcases AccountLockGuard.acquire_cases s.locks request.writeAccounts request.readAccounts with
    ⟨-, hOk⟩ | ⟨-, hErr⟩
  · rw [hOk] at hEq
    cases hEq
  · rw [hErr] at hEq
    cases hEq
    rfl

/-- The accounts of a guard of `Session.twoReaders`. -/
def twoReadersAccounts (guard : AccountLockGuard) : List Pubkey :=
  if guard.writeAccounts = ∅ then [Pubkey.filled 2] else [Pubkey.filled 1, Pubkey.filled 2]

/-- A third reader meets the two guards of `Session.twoReaders`. -/
theorem acquire_iff_no_hybrid_conflict_twoReaders :
    let s := (run Session.step Session.init Session.twoReaders).getD Session.init
    let hasher : BloomHash := fun seed account => account.bytes.head.toUInt64 + seed.val.toUInt64
    (∃ locks guard, AccountLockGuard.acquire s.locks ∅ {Pubkey.filled 2} = (locks, .ok guard)) ↔
      ∀ g ∈ s.live, accountsConflictHybridRw
        (computeBloomFilter hasher [Pubkey.filled 2]) ∅ {Pubkey.filled 2}
        (computeBloomFilter hasher (twoReadersAccounts g)) g.writeAccounts g.readAccounts = false := by
  intro s hasher
  have hAccounts : ∀ g ∈ s.live, g.Covers (twoReadersAccounts g) := by
    intro g hg
    have hLive : s.live = [⟨∅, {Pubkey.filled 2}⟩, ⟨{Pubkey.filled 1}, {Pubkey.filled 2}⟩] := rfl
    rw [hLive] at hg
    intro acc
    rcases List.mem_pair.mp hg with rfl | rfl <;> simp [twoReadersAccounts]
  exact (acquire_iff_no_hybrid_conflict ⟨Session.twoReaders, by rfl⟩ hasher
    ⟨∅, {Pubkey.filled 2}⟩ [Pubkey.filled 2] twoReadersAccounts (fun acc => by simp) hAccounts).1

end Blunder
