import Blunder.Core.Basic
import Blunder.Foundation.Transition
import Mathlib.Logic.Function.Basic
import Mathlib.Data.List.Basic

/-!
# The submissions of a block engine

`BlockEngine::submit_bundle` numbers a bundle and stores it while it holds the lock of the
counter. `BlockEngine::clear_submission` takes no lock of its own: the map that it clears has
shards, each with a lock, and it empties one after another. Any number of threads call both.
The counter wraps; with checked arithmetic the call that would wrap it panics.

* `step_inv`: the numbers are those of the order in which the bundles were accepted.
* `settled_step`: a number whose bundle has been stored is not stored again.
* `reachable_submissions`: what each call does to the submissions of the others.
-/

namespace Blunder

open Foundation.Transition

/-- The shard of the map that a key is in. -/
structure Shards where
  count : ℕ
  shard : UInt64 → Fin count

/-- The point that the call of a thread has reached. -/
inductive SubmissionPc
  | idle
  | locking (bundle : Bundle) (score : UInt64)
  | numbering (bundle : Bundle) (score : UInt64)
  | inserting (bundle : Bundle) (score : UInt64) (bundleId : UInt64)
  | unlocking (bundle : Bundle) (score : UInt64) (bundleId : UInt64)
  | submitted (bundle : Bundle) (score : UInt64) (bundleId : UInt64)
  | clearing (next : ℕ)
  | cleared

namespace SubmissionPc

/-- The thread is between the lock and the unlock of the counter. -/
def holdsLock : SubmissionPc → Bool
  | .numbering _ _ => true
  | .inserting _ _ _ => true
  | .unlocking _ _ _ => true
  | _ => false

/-- The bundle of the call, its score and its number once it has one. -/
def numbered : SubmissionPc → Option (Bundle × UInt64 × UInt64)
  | .inserting bundle score bundleId => some (bundle, score, bundleId)
  | .unlocking bundle score bundleId => some (bundle, score, bundleId)
  | .submitted bundle score bundleId => some (bundle, score, bundleId)
  | _ => none

/-- The call has not returned. -/
def inCall : SubmissionPc → Bool
  | .idle => false
  | .submitted _ _ _ => false
  | .cleared => false
  | _ => true

end SubmissionPc

/-- A bundle as it was handed in. -/
structure AcceptedBundle (threadCount : ℕ) where
  thread : Fin threadCount
  bundle : Bundle
  score : UInt64

/-- `owner` holds the lock of `nextId`. `accepted` is a record of the bundles that were given a
number. -/
structure SubmissionStore (threadCount : ℕ) where
  submissions : UInt64 → Option BundleSubmission
  nextId : UInt64
  owner : Option (Fin threadCount)
  threads : Fin threadCount → SubmissionPc
  accepted : List (AcceptedBundle threadCount)

namespace SubmissionStore

variable {threadCount : ℕ}

/-! ## Steps -/

/-- `BlockEngine::new`. -/
def new (threadCount : ℕ) : SubmissionStore threadCount :=
  ⟨fun _ => none, 0, none, fun _ => .idle, []⟩

def goto (s : SubmissionStore threadCount) (t : Fin threadCount) (pc : SubmissionPc) :
    SubmissionStore threadCount :=
  { s with threads := Function.update s.threads t pc }

/-- The map without the keys of one shard. -/
def clearShard (shards : Shards) (submissions : UInt64 → Option BundleSubmission) (k : ℕ) :
    UInt64 → Option BundleSubmission :=
  fun id => if (shards.shard id).val = k then none else submissions id

/-- The next step of the call of a thread. -/
def proceed (shards : Shards) (s : SubmissionStore threadCount) (t : Fin threadCount) :
    Option (SubmissionStore threadCount) :=
  match s.threads t with
  | .locking bundle score =>
    if s.owner = none then some { s.goto t (.numbering bundle score) with owner := some t }
    else none
  | .numbering bundle score =>
    some { s.goto t (.inserting bundle score s.nextId) with
      nextId := s.nextId + 1
      accepted := s.accepted ++ [⟨t, bundle, score⟩] }
  | .inserting bundle score bundleId =>
    some { s.goto t (.unlocking bundle score bundleId) with
      submissions := Function.update s.submissions bundleId
        (some ⟨{ bundle with id := bundleId }, score⟩) }
  | .unlocking bundle score bundleId =>
    some { s.goto t (.submitted bundle score bundleId) with owner := none }
  | .clearing next =>
    if next < shards.count then
      some { s.goto t (.clearing (next + 1)) with
        submissions := clearShard shards s.submissions next }
    else some (s.goto t .cleared)
  | _ => none

inductive Act (threadCount : ℕ)
  | submit (t : Fin threadCount) (bundle : Bundle) (score : UInt64)
  | clear (t : Fin threadCount)
  | proceed (t : Fin threadCount)
  | take (t : Fin threadCount)

/-- A thread calls `submit_bundle` or `clear_submission`, goes on with its call or takes what the
call has returned. -/
def step (shards : Shards) (s : SubmissionStore threadCount) :
    Act threadCount → Option (SubmissionStore threadCount)
  | .submit t bundle score =>
    match s.threads t with
    | .idle => some (s.goto t (.locking bundle score))
    | _ => none
  | .clear t =>
    match s.threads t with
    | .idle => some (s.goto t (.clearing 0))
    | _ => none
  | .proceed t => s.proceed shards t
  | .take t =>
    match s.threads t with
    | .submitted _ _ _ => some (s.goto t .idle)
    | .cleared => some (s.goto t .idle)
    | _ => none

/-- What a step does. -/
inductive Step (shards : Shards) (s : SubmissionStore threadCount) :
    Act threadCount → SubmissionStore threadCount → Prop
  | submit {t bundle score} (hPc : s.threads t = .idle) :
    Step shards s (.submit t bundle score) (s.goto t (.locking bundle score))
  | call {t} (hPc : s.threads t = .idle) : Step shards s (.clear t) (s.goto t (.clearing 0))
  | lock {t bundle score} (hPc : s.threads t = .locking bundle score) (hFree : s.owner = none) :
    Step shards s (.proceed t) { s.goto t (.numbering bundle score) with owner := some t }
  | number {t bundle score} (hPc : s.threads t = .numbering bundle score) :
    Step shards s (.proceed t) { s.goto t (.inserting bundle score s.nextId) with
      nextId := s.nextId + 1
      accepted := s.accepted ++ [⟨t, bundle, score⟩] }
  | insert {t bundle score id} (hPc : s.threads t = .inserting bundle score id) :
    Step shards s (.proceed t) { s.goto t (.unlocking bundle score id) with
      submissions := Function.update s.submissions id (some ⟨{ bundle with id }, score⟩) }
  | unlock {t bundle score id} (hPc : s.threads t = .unlocking bundle score id) :
    Step shards s (.proceed t) { s.goto t (.submitted bundle score id) with owner := none }
  | clear {t next} (hPc : s.threads t = .clearing next) (hLt : next < shards.count) :
    Step shards s (.proceed t) { s.goto t (.clearing (next + 1)) with
      submissions := clearShard shards s.submissions next }
  | done {t next} (hPc : s.threads t = .clearing next) (hLe : shards.count ≤ next) :
    Step shards s (.proceed t) (s.goto t .cleared)
  | take {t}
      (hPc : s.threads t = .cleared ∨
        ∃ bundle score id, s.threads t = .submitted bundle score id) :
    Step shards s (.take t) (s.goto t .idle)

variable {shards : Shards} {s s' : SubmissionStore threadCount} {act : Act threadCount}
  {t u : Fin threadCount} {bundle : Bundle} {score id : UInt64} {pc : SubmissionPc}

theorem step_cases (h : step shards s act = some s') : Step shards s act s' := by
  cases act with
  | submit t bundle score =>
    simp only [step] at h
    split at h
    · rename_i hPc
      cases h
      exact .submit hPc
    · cases h
  | clear t =>
    simp only [step] at h
    split at h
    · rename_i hPc
      cases h
      exact .call hPc
    · cases h
  | proceed t =>
    simp only [step, proceed] at h
    split at h
    · rename_i hPc
      obtain ⟨hFree, hNext⟩ := Option.ite_none_right_eq_some.mp h
      cases hNext
      exact .lock hPc hFree
    · rename_i hPc
      cases h
      exact .number hPc
    · rename_i hPc
      cases h
      exact .insert hPc
    · rename_i hPc
      cases h
      exact .unlock hPc
    · rename_i hPc
      split at h
      · rename_i hLt
        cases h
        exact .clear hPc hLt
      · rename_i hNotLt
        cases h
        exact .done hPc (Nat.le_of_not_lt hNotLt)
    · cases h
  | take t =>
    simp only [step] at h
    split at h
    · rename_i hPc
      cases h
      exact .take (Or.inr ⟨_, _, _, hPc⟩)
    · rename_i hPc
      cases h
      exact .take (Or.inl hPc)
    · cases h

/-! ## The invariant -/

/-- What the map, the counter and the calls have to do with the bundles that were accepted. -/
structure Inv (s : SubmissionStore threadCount) : Prop where
  nextId : s.nextId = UInt64.ofNat s.accepted.length
  owner : ∀ t, (s.threads t).holdsLock = true → s.owner = some t
  held : ∀ t, s.owner = some t → (s.threads t).holdsLock = true
  numbered : ∀ t bundle score id, (s.threads t).numbered = some (bundle, score, id) →
    ∃ i, s.accepted[i]? = some ⟨t, bundle, score⟩ ∧ id = UInt64.ofNat i
  stored : ∀ id submission, s.submissions id = some submission →
    ∃ i a, s.accepted[i]? = some a ∧ id = UInt64.ofNat i ∧
      submission = ⟨{ a.bundle with id }, a.score⟩
  last : ∀ t bundle score id, s.threads t = .inserting bundle score id →
    ∃ before, s.accepted = before ++ [⟨t, bundle, score⟩] ∧ id = UInt64.ofNat before.length ∧
      ∀ other, s.submissions other ≠ none → ∃ i < before.length, other = UInt64.ofNat i

theorem goto_threads_self : (s.goto t pc).threads t = pc := Function.update_self ..

theorem goto_threads_of_ne (h : u ≠ t) : (s.goto t pc).threads u = s.threads u :=
  Function.update_of_ne h _ _

/-- The thread that moved is at its new point, the others are where they were. -/
theorem goto_cases {P : SubmissionPc → Prop} (h : P ((s.goto t pc).threads u)) :
    u = t ∧ P pc ∨ u ≠ t ∧ P (s.threads u) := by
  by_cases hu : u = t
  · subst hu
    rw [goto_threads_self] at h
    exact Or.inl ⟨rfl, h⟩
  · rw [goto_threads_of_ne hu] at h
    exact Or.inr ⟨hu, h⟩

theorem new_inv : Inv (new threadCount) where
  nextId := rfl
  owner t h := by cases h
  held t h := by cases h
  numbered t bundle score id h := by cases h
  stored id submission h := by cases h
  last t bundle score id h := by cases h

/-- A step without the lock, which may empty a part of the map. -/
theorem Inv.goto (hs : Inv s) (hBefore : (s.threads t).holdsLock = false)
    (hLock : pc.holdsLock = false) (hNumber : pc.numbered = none)
    {submissions : UInt64 → Option BundleSubmission}
    (hLess : ∀ id submission, submissions id = some submission →
      s.submissions id = some submission) :
    Inv { s.goto t pc with submissions } where
  nextId := hs.nextId
  owner u h := by
    rcases goto_cases (P := fun pc => pc.holdsLock = true) h with ⟨-, hNew⟩ | ⟨-, hSame⟩
    · rw [hLock] at hNew
      cases hNew
    · exact hs.owner u hSame
  held u h := by
    have hHolds := hs.held u h
    have hu : u ≠ t := by
      rintro rfl
      rw [hBefore] at hHolds
      cases hHolds
    exact (congrArg SubmissionPc.holdsLock (goto_threads_of_ne hu)).trans hHolds
  numbered u bundle score id h := by
    rcases goto_cases (P := fun pc => pc.numbered = some (bundle, score, id)) h with
      ⟨-, hNew⟩ | ⟨-, hSame⟩
    · rw [hNumber] at hNew
      cases hNew
    · exact hs.numbered u bundle score id hSame
  stored id submission h := hs.stored id submission (hLess id submission h)
  last u bundle score id h := by
    rcases goto_cases (P := fun pc => pc = .inserting bundle score id) h with
      ⟨-, rfl⟩ | ⟨-, hSame⟩
    · cases hLock
    · obtain ⟨before, hAccepted, hId, hStored⟩ := hs.last u bundle score id hSame
      refine ⟨before, hAccepted, hId, ?_⟩
      intro other hOther
      obtain ⟨submission, hSubmission⟩ := Option.ne_none_iff_exists'.mp hOther
      apply hStored
      rw [hLess other submission hSubmission]
      exact Option.some_ne_none _

theorem getElem?_concat_of_some {a b : AcceptedBundle threadCount}
    {accepted : List (AcceptedBundle threadCount)} {i : ℕ} (h : accepted[i]? = some a) :
    (accepted ++ [b])[i]? = some a := by
  rw [List.getElem?_append_left (List.getElem?_eq_some_iff.mp h).1, h]

theorem number_inv (hs : Inv s) (hPc : s.threads t = .numbering bundle score) :
    Inv { s.goto t (.inserting bundle score s.nextId) with
      nextId := s.nextId + 1
      accepted := s.accepted ++ [⟨t, bundle, score⟩] } where
  nextId := by
    rw [hs.nextId, List.length_append]
    exact (UInt64.ofNat_add _ _).symm
  owner u h := by
    rcases goto_cases (P := fun pc => pc.holdsLock = true) h with ⟨rfl, -⟩ | ⟨-, hSame⟩
    · exact hs.owner u (by rw [hPc]; rfl)
    · exact hs.owner u hSame
  held u h := by
    have hOwner := hs.owner t (by rw [hPc]; rfl)
    obtain rfl := Option.some.inj (hOwner.symm.trans h)
    exact congrArg SubmissionPc.holdsLock goto_threads_self
  numbered u other value id h := by
    rcases goto_cases (P := fun pc => pc.numbered = some (other, value, id)) h with
      ⟨rfl, hNew⟩ | ⟨-, hSame⟩
    · cases hNew
      exact ⟨s.accepted.length, List.getElem?_concat_length, hs.nextId⟩
    · obtain ⟨i, hi, hId⟩ := hs.numbered u other value id hSame
      exact ⟨i, getElem?_concat_of_some hi, hId⟩
  stored id submission h := by
    obtain ⟨i, a, hi, hRest⟩ := hs.stored id submission h
    exact ⟨i, a, getElem?_concat_of_some hi, hRest⟩
  last u other value id h := by
    rcases goto_cases (P := fun pc => pc = .inserting other value id) h with
      ⟨rfl, hNew⟩ | ⟨hu, hSame⟩
    · cases hNew
      refine ⟨s.accepted, rfl, hs.nextId, ?_⟩
      intro stored hStored
      obtain ⟨submission, hSubmission⟩ := Option.ne_none_iff_exists'.mp hStored
      obtain ⟨i, a, hi, hId, -⟩ := hs.stored stored submission hSubmission
      exact ⟨i, (List.getElem?_eq_some_iff.mp hi).1, hId⟩
    · -- nobody else holds the lock
      have hOwner := hs.owner u (by rw [hSame]; rfl)
      have hOther := hs.owner t (by rw [hPc]; rfl)
      rw [hOwner] at hOther
      exact absurd (Option.some.inj hOther) hu

theorem insert_inv (hs : Inv s) (hPc : s.threads t = .inserting bundle score id) :
    Inv { s.goto t (.unlocking bundle score id) with
      submissions := Function.update s.submissions id (some ⟨{ bundle with id }, score⟩) } where
  nextId := hs.nextId
  owner u h := by
    rcases goto_cases (P := fun pc => pc.holdsLock = true) h with ⟨rfl, -⟩ | ⟨-, hSame⟩
    · exact hs.owner u (by rw [hPc]; rfl)
    · exact hs.owner u hSame
  held u h := by
    have hOwner := hs.owner t (by rw [hPc]; rfl)
    obtain rfl := Option.some.inj (hOwner.symm.trans h)
    exact congrArg SubmissionPc.holdsLock goto_threads_self
  numbered u other value number h := by
    rcases goto_cases (P := fun pc => pc.numbered = some (other, value, number)) h with
      ⟨rfl, hNew⟩ | ⟨-, hSame⟩
    · exact hs.numbered u other value number (by rw [hPc]; exact hNew)
    · exact hs.numbered u other value number hSame
  stored other submission h := by
    by_cases hSame : other = id
    · subst hSame
      simp only [Function.update_self] at h
      cases h
      obtain ⟨i, hi, hId⟩ := hs.numbered t bundle score other (by rw [hPc]; rfl)
      exact ⟨i, _, hi, hId, rfl⟩
    · simp only [Function.update_of_ne hSame] at h
      exact hs.stored other submission h
  last u other value number h := by
    rcases goto_cases (P := fun pc => pc = .inserting other value number) h with
      ⟨-, hNew⟩ | ⟨hu, hSame⟩
    · cases hNew
    · have hOwner := hs.owner u (by rw [hSame]; rfl)
      have hOther := hs.owner t (by rw [hPc]; rfl)
      rw [hOwner] at hOther
      exact absurd (Option.some.inj hOther) hu

/-- The lock is taken or given back. -/
theorem lock_inv (hs : Inv s) {owner : Option (Fin threadCount)}
    (hOwner : ∀ u, u ≠ t → (s.threads u).holdsLock = true → owner = some u)
    (hOwn : pc.holdsLock = true → owner = some t)
    (hHeld : ∀ u, owner = some u → u = t ∧ pc.holdsLock = true)
    (hNumber : pc.numbered = none ∨ pc.numbered = (s.threads t).numbered)
    (hPc : ∀ bundle score id, pc ≠ .inserting bundle score id) :
    Inv { s.goto t pc with owner } where
  nextId := hs.nextId
  owner u h := by
    rcases goto_cases (P := fun pc => pc.holdsLock = true) h with ⟨rfl, hNew⟩ | ⟨hu, hSame⟩
    · exact hOwn hNew
    · exact hOwner u hu hSame
  held u h := by
    obtain ⟨rfl, hHolds⟩ := hHeld u h
    exact (congrArg SubmissionPc.holdsLock goto_threads_self).trans hHolds
  numbered u bundle score id h := by
    rcases goto_cases (P := fun pc => pc.numbered = some (bundle, score, id)) h with
      ⟨rfl, hNew⟩ | ⟨-, hSame⟩
    · rcases hNumber with hNone | hKept
      · rw [hNone] at hNew
        cases hNew
      · exact hs.numbered u bundle score id (hKept ▸ hNew)
    · exact hs.numbered u bundle score id hSame
  stored := hs.stored
  last u bundle score id h := by
    rcases goto_cases (P := fun pc => pc = .inserting bundle score id) h with
      ⟨-, hNew⟩ | ⟨-, hSame⟩
    · exact absurd hNew (hPc bundle score id)
    · exact hs.last u bundle score id hSame

theorem clearShard_some {k : ℕ} {submission : BundleSubmission}
    (h : clearShard shards s.submissions k id = some submission) :
    s.submissions id = some submission := by
  rw [clearShard] at h
  split at h
  · cases h
  · exact h

theorem step_inv (hs : Inv s) (h : step shards s act = some s') : Inv s' := by
  cases step_cases h with
  | submit hPc => exact hs.goto (by rw [hPc]; rfl) rfl rfl fun _ _ h => h
  | call hPc => exact hs.goto (by rw [hPc]; rfl) rfl rfl fun _ _ h => h
  | @lock t bundle score hPc hFree =>
    refine lock_inv hs ?_ (fun _ => rfl) ?_ (Or.inl rfl) ?_
    · intro u _ hHolds
      rw [hs.owner u hHolds] at hFree
      cases hFree
    · intro u hOwner
      cases hOwner
      exact ⟨rfl, rfl⟩
    · intro _ _ _ hNew
      cases hNew
  | number hPc => exact number_inv hs hPc
  | insert hPc => exact insert_inv hs hPc
  | @unlock t bundle score id hPc =>
    refine lock_inv hs ?_ (fun hHolds => by cases hHolds) (fun u hOwner => by cases hOwner)
      (Or.inr (by rw [hPc]; rfl)) ?_
    · intro u hu hHolds
      have hOther := hs.owner t (by rw [hPc]; rfl)
      rw [hs.owner u hHolds] at hOther
      exact absurd (Option.some.inj hOther) hu
    · intro _ _ _ hNew
      cases hNew
  | clear hPc => exact hs.goto (by rw [hPc]; rfl) rfl rfl fun _ _ h => clearShard_some h
  | done hPc => exact hs.goto (by rw [hPc]; rfl) rfl rfl fun _ _ h => h
  | take hPc =>
    refine hs.goto ?_ rfl rfl fun _ _ h => h
    rcases hPc with hPc | ⟨bundle, score, id, hPc⟩
    · rw [hPc]
      rfl
    · rw [hPc]
      rfl

/-! ## Settled numbers -/

/-- The number was given to a bundle that is not about to be stored. -/
structure Settled (s : SubmissionStore threadCount) (id : UInt64) : Prop where
  given : ∃ i < s.accepted.length, id = UInt64.ofNat i
  stored : ∀ t bundle score, s.threads t ≠ .inserting bundle score id

theorem ofNat_inj {i j : ℕ} (hi : i < UInt64.size) (hj : j < UInt64.size)
    (h : UInt64.ofNat i = UInt64.ofNat j) : i = j := by
  have hNat := congrArg UInt64.toNat h
  rwa [UInt64.toNat_ofNat_of_lt' hi, UInt64.toNat_ofNat_of_lt' hj] at hNat

/-- A number is settled when its bundle is in the map. -/
theorem Inv.settled (hs : Inv s) (hSize : s.accepted.length < UInt64.size)
    (hStored : s.submissions id ≠ none) : Settled s id := by
  obtain ⟨submission, hSubmission⟩ := Option.ne_none_iff_exists'.mp hStored
  obtain ⟨i, a, hi, hId, -⟩ := hs.stored id submission hSubmission
  refine ⟨⟨i, (List.getElem?_eq_some_iff.mp hi).1, hId⟩, ?_⟩
  intro t bundle score hPc
  obtain ⟨before, hAccepted, hLast, hBefore⟩ := hs.last t bundle score id hPc
  obtain ⟨j, hj, hEarlier⟩ := hBefore id hStored
  rw [hAccepted, List.length_append, List.length_singleton] at hSize
  have hSame := ofNat_inj (by omega) (by omega) (hLast.symm.trans hEarlier)
  omega

/-- What has been accepted keeps its place. -/
theorem accepted_step (h : step shards s act = some s') : s.accepted <+: s'.accepted := by
  cases step_cases h with
  | number => exact List.prefix_append _ _
  | _ => exact List.prefix_rfl

theorem length_step_le (h : step shards s act = some s') :
    s.accepted.length ≤ s'.accepted.length :=
  (accepted_step h).length_le

/-- A settled number stays settled: the later ones are different. -/
theorem settled_step (hs : Inv s) (hSettled : Settled s id)
    (h : step shards s act = some s') (hSize : s'.accepted.length < UInt64.size) :
    Settled s' id := by
  obtain ⟨i, hi, hId⟩ := hSettled.given
  refine ⟨⟨i, hi.trans_le (length_step_le h), hId⟩, ?_⟩
  intro u bundle score hInserting
  cases step_cases h with
  | @number t other value hPc =>
    rcases goto_cases (P := fun pc => pc = .inserting bundle score id) hInserting with
      ⟨-, hNew⟩ | ⟨-, hSame⟩
    · cases hNew
      rw [List.length_append, List.length_singleton] at hSize
      have hSame := ofNat_inj (by omega) (by omega) (hs.nextId.symm.trans hId)
      omega
    · exact hSettled.stored u bundle score hSame
  | _ =>
    rcases goto_cases (P := fun pc => pc = .inserting bundle score id) hInserting with
      ⟨-, hNew⟩ | ⟨-, hSame⟩
    · cases hNew
    · exact hSettled.stored u bundle score hSame

/-- The step empties the shard of the number. -/
def Clears (shards : Shards) (id : UInt64) (s : SubmissionStore threadCount) :
    Act threadCount → Prop
  | .proceed t => s.threads t = .clearing (shards.shard id)
  | _ => False

/-- What is in the map under a settled number changes only when its shard is emptied. -/
theorem submissions_step (hSettled : Settled s id) (h : step shards s act = some s')
    (hKept : ¬ Clears shards id s act) : s'.submissions id = s.submissions id := by
  cases step_cases h with
  | @insert t bundle score other hPc =>
    have hNe : id ≠ other := by
      rintro rfl
      exact hSettled.stored t bundle score hPc
    exact Function.update_of_ne hNe _ _
  | @clear t next hPc =>
    refine if_neg ?_
    intro hShard
    apply hKept
    rw [Clears, hShard]
    exact hPc
  | _ => rfl

theorem submissions_eq_none_step (hSettled : Settled s id) (h : step shards s act = some s')
    (hNone : s.submissions id = none) : s'.submissions id = none := by
  by_cases hClears : Clears shards id s act
  · cases step_cases h with
    | @clear t next hPc =>
      simp only [clearShard, hNone, ite_self]
    | @insert t bundle score other hPc =>
      rw [Clears, hPc] at hClears
      cases hClears
    | _ => exact hNone
  · rw [submissions_step hSettled h hClears, hNone]

/-! ## Runs -/

/-- The thread that an action belongs to. -/
def Act.thread : Act threadCount → Fin threadCount
  | .submit t _ _ => t
  | .clear t => t
  | .proceed t => t
  | .take t => t

theorem threads_of_ne (hThread : act.thread ≠ t) (h : step shards s act = some s') :
    s'.threads t = s.threads t := by
  cases step_cases h with
  | _ => exact goto_threads_of_ne (Ne.symm hThread)

/-- What each step preserves as long as the counter has not wrapped. -/
theorem run_preserves {J : SubmissionStore threadCount → Prop}
    {P : SubmissionStore threadCount → Act threadCount → Prop} {acts : List (Act threadCount)}
    (hStep : ∀ x act x', Inv x → J x → P x act → step shards x act = some x' →
      x'.accepted.length < UInt64.size → J x')
    (hs : Inv s) (hJ : s.accepted.length < UInt64.size → J s)
    (hRun : run (step shards) s acts = some s') (hP : Along (step shards) P s acts)
    (hSize : s'.accepted.length < UInt64.size) : J s' := by
  have hBoth : Inv s' ∧ (s'.accepted.length < UInt64.size → J s') := by
    refine invariant_along (I := fun x => Inv x ∧ (x.accepted.length < UInt64.size → J x)) ?_ hRun
      hP ⟨hs, hJ⟩
    intro x act x' hx hAct hNext
    refine ⟨step_inv hx.1 hNext, fun hLt => ?_⟩
    exact hStep x act x' hx.1 (hx.2 ((length_step_le hNext).trans_lt hLt)) hAct hNext hLt
  exact hBoth.2 hSize

theorem run_inv {acts : List (Act threadCount)} (hs : Inv s)
    (hRun : run (step shards) s acts = some s') : Inv s' :=
  run_invariant (fun _ _ _ hx hStep => step_inv hx hStep) hRun hs

theorem accepted_run {acts : List (Act threadCount)} (hRun : run (step shards) s acts = some s') :
    s.accepted <+: s'.accepted :=
  run_invariant (I := fun x => s.accepted <+: x.accepted)
    (fun _ _ _ hx hStep => hx.trans (accepted_step hStep)) hRun List.prefix_rfl

/-- The thread has no number from before there were `n` accepted bundles. -/
structure NumbersFrom (n : ℕ) (t : Fin threadCount) (s : SubmissionStore threadCount) : Prop where
  inv : Inv s
  le : n ≤ s.accepted.length
  numbered : ∀ bundle score id, (s.threads t).numbered = some (bundle, score, id) →
    ∃ i ≥ n, s.accepted[i]? = some ⟨t, bundle, score⟩ ∧ id = UInt64.ofNat i

theorem numbersFrom_step {n : ℕ} (hs : NumbersFrom n t s) (h : step shards s act = some s') :
    NumbersFrom n t s' := by
  refine ⟨step_inv hs.inv h, hs.le.trans (length_step_le h), ?_⟩
  intro bundle score id hNumbered
  cases step_cases h with
  | @number u other value hPc =>
    rcases goto_cases (P := fun pc => pc.numbered = some (bundle, score, id)) hNumbered with
      ⟨rfl, hNew⟩ | ⟨-, hSame⟩
    · cases hNew
      exact ⟨s.accepted.length, hs.le, List.getElem?_concat_length, hs.inv.nextId⟩
    · obtain ⟨i, hFrom, hi, hId⟩ := hs.numbered bundle score id hSame
      exact ⟨i, hFrom, getElem?_concat_of_some hi, hId⟩
  | insert hPc | unlock hPc =>
    rcases goto_cases (P := fun pc => pc.numbered = some (bundle, score, id)) hNumbered with
      ⟨rfl, hNew⟩ | ⟨-, hSame⟩
    · exact hs.numbered bundle score id (by rw [hPc]; exact hNew)
    · exact hs.numbered bundle score id hSame
  | _ =>
    rcases goto_cases (P := fun pc => pc.numbered = some (bundle, score, id)) hNumbered with
      ⟨-, hNew⟩ | ⟨-, hSame⟩
    · cases hNew
    · exact hs.numbered bundle score id hSame

/-- What a thread numbers after it has taken a result comes later than all that was accepted. -/
theorem numbered_after_take (hs : Inv s) {acts : List (Act threadCount)}
    (hRun : run (step shards) s acts = some s') (hTake : .take t ∈ acts)
    (hNumbered : (s'.threads t).numbered = some (bundle, score, id)) :
    ∃ i ≥ s.accepted.length, s'.accepted[i]? = some ⟨t, bundle, score⟩ ∧ id = UInt64.ofNat i := by
  obtain ⟨before, after, rfl⟩ := List.append_of_mem hTake
  obtain ⟨mid, hBefore, hRest⟩ := Option.bind_eq_some_iff.mp (run_append.symm.trans hRun)
  obtain ⟨next, hNext, hAfter⟩ := run_cons_eq_some_iff.mp hRest
  have hMid := run_inv hs hBefore
  have hLe := (accepted_run hBefore).length_le.trans (length_step_le hNext)
  have hFrom : NumbersFrom s.accepted.length t next := by
    refine ⟨step_inv hMid hNext, hLe, ?_⟩
    intro bundle score id hOld
    cases step_cases hNext with
    | take hPc =>
      rw [goto_threads_self] at hOld
      cases hOld
  have hLast := run_invariant (fun _ _ _ hx hStep => numbersFrom_step hx hStep) hAfter hFrom
  exact hLast.numbered bundle score id hNumbered

/-- Two calls that return get different numbers, whichever threads make them and when. -/
theorem ids_ne (hs : Inv s) {acts : List (Act threadCount)} {bundle' : Bundle}
    {score' id' : UInt64} (hFirst : s.threads t = .submitted bundle score id)
    (hRun : run (step shards) s acts = some s') (hSize : s'.accepted.length < UInt64.size)
    (hSecond : s'.threads u = .submitted bundle' score' id') (hOther : u ≠ t ∨ .take t ∈ acts) :
    id ≠ id' := by
  obtain ⟨i, hi, hId⟩ := hs.numbered t bundle score id (by rw [hFirst]; rfl)
  have hLt := (List.getElem?_eq_some_iff.mp hi).1
  have hi' : s'.accepted[i]? = some ⟨t, bundle, score⟩ := by
    rw [List.prefix_iff_getElem?.mp (accepted_run hRun) i hLt, ← List.getElem?_eq_getElem hLt, hi]
  obtain ⟨j, hNe, hj, hId'⟩ : ∃ j, j ≠ i ∧ s'.accepted[j]? = some ⟨u, bundle', score'⟩ ∧
      id' = UInt64.ofNat j := by
    have hNumbered : (s'.threads u).numbered = some (bundle', score', id') := by rw [hSecond]; rfl
    by_cases hu : u = t
    · subst hu
      have hTake := hOther.resolve_left fun hNe => hNe rfl
      obtain ⟨j, hLe, hj, hId'⟩ := numbered_after_take hs hRun hTake hNumbered
      exact ⟨j, by omega, hj, hId'⟩
    · obtain ⟨j, hj, hId'⟩ := (run_inv hs hRun).numbered u bundle' score' id' hNumbered
      refine ⟨j, ?_, hj, hId'⟩
      rintro rfl
      rw [hi'] at hj
      cases hj
      exact hu rfl
  intro hSame
  have hLe := (accepted_run hRun).length_le
  have hLt' := (List.getElem?_eq_some_iff.mp hj).1
  rw [hId, hId'] at hSame
  exact hNe (ofNat_inj (hLt'.trans hSize) ((hLt.trans_le hLe).trans hSize) hSame.symm)

/-- The bundle is stored or about to be. -/
def Arrives (t : Fin threadCount) (bundle : Bundle) (score id : UInt64)
    (s : SubmissionStore threadCount) : Prop :=
  s.threads t = .inserting bundle score id ∨
    Settled s id ∧ s.submissions id = some ⟨{ bundle with id }, score⟩

theorem submissions_of_inserting (hPc : s.threads t = .inserting bundle score id)
    (hThread : act.thread = t) (h : step shards s act = some s') :
    s'.submissions id = some ⟨{ bundle with id }, score⟩ := by
  cases act with
  | proceed u =>
    obtain rfl : u = t := hThread
    simp only [step, proceed, hPc] at h
    cases h
    exact Function.update_self ..
  | _ u =>
    obtain rfl : u = t := hThread
    simp only [step, hPc] at h
    cases h

theorem arrives_step (hs : Inv s) (hArrives : Arrives t bundle score id s)
    (hKept : ¬ Clears shards id s act) (h : step shards s act = some s')
    (hSize : s'.accepted.length < UInt64.size) : Arrives t bundle score id s' := by
  rcases hArrives with hPc | ⟨hSettled, hStored⟩
  · by_cases hThread : act.thread = t
    · have hStored := submissions_of_inserting hPc hThread h
      refine Or.inr ⟨(step_inv hs h).settled hSize ?_, hStored⟩
      rw [hStored]
      exact Option.some_ne_none _
    · exact Or.inl ((threads_of_ne hThread h).trans hPc)
  · exact Or.inr ⟨settled_step hs hSettled h hSize,
      (submissions_step hSettled h hKept).trans hStored⟩

/-- The clear has emptied the shard of the number, or will. -/
def Passes (shards : Shards) (t : Fin threadCount) (id : UInt64) (s : SubmissionStore threadCount) :
    Prop :=
  (∃ next, s.threads t = .clearing next ∧
    ((shards.shard id).val < next → s.submissions id = none)) ∨
  s.threads t = .cleared ∧ s.submissions id = none

theorem passes_step (hSettled : Settled s id) (hPasses : Passes shards t id s)
    (hTake : act ≠ .take t) (h : step shards s act = some s') : Passes shards t id s' := by
  have hNone : s.submissions id = none → s'.submissions id = none :=
    submissions_eq_none_step hSettled h
  by_cases hThread : act.thread = t
  · rcases hPasses with ⟨next, hPc, hPassed⟩ | ⟨hPc, hEmpty⟩
    · cases act with
      | proceed u =>
        obtain rfl : u = t := hThread
        simp only [step, proceed, hPc] at h
        split at h
        · cases h
          refine Or.inl ⟨next + 1, goto_threads_self, ?_⟩
          intro hLt
          by_cases hSame : (shards.shard id).val = next
          · exact if_pos hSame
          · exact (if_neg hSame).trans (hPassed (by omega))
        · rename_i hNotLt
          cases h
          have hCount := (shards.shard id).isLt
          exact Or.inr ⟨goto_threads_self, hPassed (by omega)⟩
      | _ u =>
        obtain rfl : u = t := hThread
        simp only [step, hPc] at h
        cases h
    · cases act with
      | take u => exact absurd (congrArg Act.take hThread) hTake
      | _ u =>
        obtain rfl : u = t := hThread
        simp only [step, proceed, hPc] at h
        cases h
  · have hSame := threads_of_ne hThread h
    rcases hPasses with ⟨next, hPc, hPassed⟩ | ⟨hPc, hEmpty⟩
    · exact Or.inl ⟨next, hSame.trans hPc, fun hLt => hNone (hPassed hLt)⟩
    · exact Or.inr ⟨hSame.trans hPc, hNone hEmpty⟩

theorem exists_proceed (hs : Inv s) (hCall : (s.threads t).inCall = true) :
    (∃ s', s.proceed shards t = some s') ∨
      ∃ u s', s.owner = some u ∧ s.proceed shards u = some s' := by
  have hHolds : ∀ u, (s.threads u).holdsLock = true → ∃ s', s.proceed shards u = some s' := by
    intro u hHeld
    cases hPc : s.threads u with
    | numbering bundle score => exact ⟨_, by rw [proceed, hPc]⟩
    | inserting bundle score id => exact ⟨_, by rw [proceed, hPc]⟩
    | unlocking bundle score id => exact ⟨_, by rw [proceed, hPc]⟩
    | _ =>
      rw [hPc] at hHeld
      cases hHeld
  cases hPc : s.threads t with
  | locking bundle score =>
    cases hOwner : s.owner with
    | none => exact Or.inl ⟨_, by simp only [proceed, hPc, if_pos hOwner]; rfl⟩
    | some u =>
      obtain ⟨s', hStep⟩ := hHolds u (hs.held u hOwner)
      exact Or.inr ⟨u, s', rfl, hStep⟩
  | clearing next =>
    left
    by_cases hLt : next < shards.count
    · exact ⟨_, by simp only [proceed, hPc, if_pos hLt]; rfl⟩
    · exact ⟨_, by simp only [proceed, hPc, if_neg hLt]; rfl⟩
  | numbering bundle score => exact Or.inl (hHolds t (by rw [hPc]; rfl))
  | inserting bundle score id => exact Or.inl (hHolds t (by rw [hPc]; rfl))
  | unlocking bundle score id => exact Or.inl (hHolds t (by rw [hPc]; rfl))
  | _ =>
    rw [hPc] at hCall
    cases hCall

/-! ## Main result -/

/-- The submissions of a block engine, up to the `2 ^ 64`th bundle.
* `stored`: what is in the map is an accepted bundle with its place in the order as its id.
* `returned`: the id that a call returns is the place of its bundle.
* `distinct`: two calls return different ids, also two that a thread makes one after the other.
* `arrives`, `kept`: a bundle that a call stores is in the map until its shard is emptied.
* `removed`: what is in the map when a clear begins is gone when it ends.
* `progress`: a call has a step, or it waits for the lock and the call that holds it has one. -/
structure Stored (shards : Shards) (s : SubmissionStore threadCount) : Prop where
  stored : ∀ id submission, s.submissions id = some submission →
    ∃ i a, s.accepted[i]? = some a ∧ id = UInt64.ofNat i ∧
      submission = ⟨{ a.bundle with id }, a.score⟩
  returned : ∀ t bundle score id, s.threads t = .submitted bundle score id →
    ∃ i, s.accepted[i]? = some ⟨t, bundle, score⟩ ∧ id = UInt64.ofNat i
  distinct : ∀ t bundle score id acts s' u bundle' score' id',
    s.threads t = .submitted bundle score id → run (step shards) s acts = some s' →
      s'.accepted.length < UInt64.size → s'.threads u = .submitted bundle' score' id' →
        u ≠ t ∨ .take t ∈ acts → id ≠ id'
  arrives : ∀ t bundle score id acts s', s.threads t = .inserting bundle score id →
    run (step shards) s acts = some s' → s'.accepted.length < UInt64.size →
      Along (step shards) (fun s act => ¬ Clears shards id s act) s acts →
        s'.threads t = .inserting bundle score id ∨
          s'.submissions id = some ⟨{ bundle with id }, score⟩
  kept : ∀ id acts s', s.submissions id ≠ none → run (step shards) s acts = some s' →
    s'.accepted.length < UInt64.size →
      Along (step shards) (fun s act => ¬ Clears shards id s act) s acts →
        s'.submissions id = s.submissions id
  removed : ∀ t acts s', s.threads t = .clearing 0 → run (step shards) s acts = some s' →
    s'.accepted.length < UInt64.size → .take t ∉ acts → s'.threads t = .cleared →
      ∀ id, s.submissions id ≠ none → s'.submissions id = none
  progress : ∀ t, (s.threads t).inCall = true → (∃ s', s.proceed shards t = some s') ∨
    ∃ u s', s.owner = some u ∧ s.proceed shards u = some s'

/-- Whichever threads submit bundles and clear the map. -/
theorem reachable_submissions (h : Reachable (step shards) (new threadCount) s) :
    Stored shards s := by
  have hs : Inv s := h.invariant (fun _ _ _ hs hStep => step_inv hs hStep) new_inv
  refine ⟨hs.stored, ?_, ?_, ?_, ?_, ?_, fun t hCall => exists_proceed hs hCall⟩
  · intro t bundle score id hPc
    exact hs.numbered t bundle score id (by rw [hPc]; rfl)
  · intro t bundle score id acts s' u bundle' score' id' hFirst hRun hSize hSecond hOther
    exact ids_ne hs hFirst hRun hSize hSecond hOther
  · intro t bundle score id acts s' hPc hRun hSize hKept
    have hArrives : Arrives t bundle score id s' :=
      run_preserves
        (fun _ _ _ hx hArrives hAct hStep hLt => arrives_step hx hArrives hAct hStep hLt)
        hs (fun _ => Or.inl hPc) hRun hKept hSize
    exact hArrives.imp_right And.right
  · intro id acts s' hStored hRun hSize hKept
    have hSame : Settled s' id ∧ s'.submissions id = s.submissions id := by
      refine run_preserves (J := fun x => Settled x id ∧ x.submissions id = s.submissions id) ?_ hs
        (fun hNow => ⟨hs.settled hNow hStored, rfl⟩) hRun hKept hSize
      intro x act x' hx hJ hAct hStep hLt
      exact ⟨settled_step hx hJ.1 hStep hLt, (submissions_step hJ.1 hStep hAct).trans hJ.2⟩
    exact hSame.2
  · intro t acts s' hPc hRun hSize hTake hCleared id hStored
    have hPasses : Settled s' id ∧ Passes shards t id s' := by
      refine run_preserves (J := fun x => Settled x id ∧ Passes shards t id x) ?_ hs ?_ hRun
        (Along.of_forall (Q := fun act => act ≠ .take t) fun act hAct hOwn => hTake (hOwn ▸ hAct))
        hSize
      · intro x act x' hx hJ hAct hStep hLt
        exact ⟨settled_step hx hJ.1 hStep hLt, passes_step hJ.1 hJ.2 hAct hStep⟩
      · intro hNow
        refine ⟨hs.settled hNow hStored, Or.inl ⟨0, hPc, ?_⟩⟩
        intro hLt
        exact absurd hLt (Nat.not_lt_zero _)
    rcases hPasses.2 with ⟨next, hClearing, -⟩ | ⟨-, hNone⟩
    · cases hCleared.symm.trans hClearing
    · exact hNone

/-- Two shards, of the even and of the odd numbers. -/
def evenOdd : Shards := ⟨2, fun id => ⟨id.toNat % 2, Nat.mod_lt _ Nat.two_pos⟩⟩

/-- While one thread clears the map another one submits two bundles: the first one to a shard
that is empty already, the second one to a shard that is yet to be emptied. -/
def submitDuringClear (a b : Fin 2) : List (Act 2) :=
  let submit := Act.submit b (Bundle.new 9 [] 1 "searcher") 5 :: List.replicate 4 (.proceed b)
  [.clear a, .proceed a] ++ submit ++ [.take b] ++ submit ++ [.proceed a, .proceed a]

/-- The clear removes the second one and not the first one. -/
theorem reachable_submissions_submitDuringClear :
    ∃ s, run (step evenOdd) (new 2) (submitDuringClear 0 1) = some s ∧
      s.submissions 0 = some ⟨Bundle.new 0 [] 1 "searcher", 5⟩ ∧ s.submissions 1 = none ∧
      Stored evenOdd s := by
  obtain ⟨s, hRun, hFirst, hSecond⟩ : ∃ s,
      run (step evenOdd) (new 2) (submitDuringClear 0 1) = some s ∧
        s.submissions 0 = some ⟨Bundle.new 0 [] 1 "searcher", 5⟩ ∧ s.submissions 1 = none :=
    ⟨_, rfl, rfl, rfl⟩
  exact ⟨s, hRun, hFirst, hSecond, reachable_submissions ⟨_, hRun⟩⟩

end SubmissionStore

end Blunder
