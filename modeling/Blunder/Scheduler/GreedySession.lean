import Blunder.Foundation.Holdings
import Blunder.Foundation.Transition
import Blunder.Scheduler.Greedy

/-!
# The lock sets of a greedy scheduler over its life

The lock sets of a `GreedyScheduler` outlive its calls: `schedule` adds to them, `reset`
empties them and `release_accounts` takes accounts out. A session is a scheduler together
with the units that were assigned and neither released nor reset since; what is released
are the accounts of one of these.

* `offerAll_eq`: the session of a call of `schedule` has the state and the assignments
  that `schedule` returns.
* `reachable_consistent`: the lock sets are the accounts of the held units, which are
  disjoint on each worker.
* `reachable_lowestFree`: which worker each unit of a call gets, and when it gets none.
-/

namespace Blunder

open Foundation FirstFit ListScheduling Transition

namespace GreedyScheduler

variable {workerCount : ℕ}

/-- `held` has the worker of each assigned unit, oldest first. -/
structure Session (workerCount : ℕ) where
  scheduler : GreedyScheduler workerCount
  held : Placement SchedulableUnit workerCount

namespace Session

def new (workerCount : ℕ) : Session workerCount := ⟨GreedyScheduler.new workerCount, []⟩

/-- One turn of the loops of `schedule`. The turn is atomic, it holds the mutex. -/
def offer (s : Session workerCount) (unit : SchedulableUnit) : Session workerCount where
  scheduler := (s.scheduler.scheduleUnit unit).1
  held :=
    match findAvailableWorker unit.allAccounts s.scheduler.lockedAccounts with
    | none => s.held
    | some w => s.held ++ [(unit, w)]

def offerAll (s : Session workerCount) (units : List SchedulableUnit) : Session workerCount :=
  units.foldl offer s

inductive Call
  | schedule (bundles : List Bundle) (looseTxs : List Transaction)
  | reset
  | release (position : ℕ)

/-- `release` is for the accounts of the unit at a position of `held`, on its worker. -/
def step (s : Session workerCount) : Call → Option (Session workerCount)
  | .schedule bundles looseTxs => some (s.offerAll (batchUnits bundles looseTxs))
  | .reset => some ⟨s.scheduler.reset, []⟩
  | .release position =>
    s.held[position]?.map fun e =>
      ⟨s.scheduler.releaseAccounts e.2 e.1.allAccounts, s.held.eraseIdx position⟩

/-- The lock sets are the accounts of the held units, no two of which on one worker share
an account. -/
structure Consistent (s : Session workerCount) : Prop where
  locked : Holds SchedulableUnit.allAccounts s.held s.scheduler.lockedAccounts
  apart : Apart SchedulableUnit.allAccounts s.held

variable {s t : Session workerCount} {unit : SchedulableUnit} {call : Call}

/-! ## One call of schedule -/

theorem findAvailableWorker_eq (accounts : Finset Pubkey)
    (states : Fin workerCount → Finset Pubkey) :
    findAvailableWorker accounts states = firstFree states accounts := rfl

theorem offer_of_none (hFirst : firstFree s.scheduler.lockedAccounts unit.allAccounts = none) :
    s.offer unit = s := by
  simp only [offer, scheduleUnit_eq, findAvailableWorker_eq, hFirst]

theorem offer_of_some {w : Fin workerCount}
    (hFirst : firstFree s.scheduler.lockedAccounts unit.allAccounts = some w) :
    s.offer unit =
      ⟨⟨put s.scheduler.lockedAccounts w unit.allAccounts⟩, s.held ++ [(unit, w)]⟩ := by
  simp only [offer, scheduleUnit_eq, findAvailableWorker_eq, hFirst]

theorem offerAll_cons (s : Session workerCount) (unit : SchedulableUnit)
    (units : List SchedulableUnit) :
    s.offerAll (unit :: units) = (s.offer unit).offerAll units := rfl

theorem offerAll_eq_scheduleEach (s : Session workerCount) (units : List SchedulableUnit) :
    ∃ entries : Placement SchedulableUnit workerCount,
      s.offerAll units = ⟨(scheduleEach scheduleUnit s.scheduler units).1, s.held ++ entries⟩ ∧
      (scheduleEach scheduleUnit s.scheduler units).2 =
        entries.map fun e => e.1.assignment e.2 := by
  induction units generalizing s with
  | nil =>
    refine ⟨[], ?_, rfl⟩
    rw [List.append_nil]
    rfl
  | cons unit units ih =>
    obtain ⟨entries, hOffer, hAssign⟩ := ih (s.offer unit)
    rw [offerAll_cons, hOffer, scheduleEach, scheduleUnit_eq]
    cases hFirst : firstFree s.scheduler.lockedAccounts unit.allAccounts with
    | none =>
      rw [offer_of_none hFirst] at hAssign ⊢
      exact ⟨entries, rfl, hAssign⟩
    | some w =>
      rw [offer_of_some hFirst] at hAssign ⊢
      refine ⟨(unit, w) :: entries, ?_, congrArg (unit.assignment w :: ·) hAssign⟩
      rw [List.append_assoc, List.singleton_append]

/-- The session after a call of `schedule`. -/
theorem offerAll_eq (s : Session workerCount) (bundles : List Bundle)
    (looseTxs : List Transaction) :
    ∃ entries : Placement SchedulableUnit workerCount,
      s.offerAll (batchUnits bundles looseTxs) =
        ⟨(s.scheduler.schedule bundles looseTxs).1, s.held ++ entries⟩ ∧
      (s.scheduler.schedule bundles looseTxs).2 = entries.map fun e => e.1.assignment e.2 := by
  rw [schedule_eq, ← scheduleEach_eq]
  exact s.offerAll_eq_scheduleEach _

/-! ## What every step preserves -/

theorem Consistent.new (workerCount : ℕ) : (new workerCount).Consistent where
  locked := Holds.nil
  apart := List.Pairwise.nil

theorem Consistent.offer (h : s.Consistent) (unit : SchedulableUnit) :
    (s.offer unit).Consistent := by
  cases hFirst : firstFree s.scheduler.lockedAccounts unit.allAccounts with
  | none =>
    rw [offer_of_none hFirst]
    exact h
  | some w =>
    rw [offer_of_some hFirst]
    exact ⟨h.locked.put unit w, h.apart.concat (h.locked.firstFree_eq_some_iff.mp hFirst).free⟩

theorem Consistent.offerAll (h : s.Consistent) (units : List SchedulableUnit) :
    (s.offerAll units).Consistent := by
  induction units generalizing s with
  | nil => exact h
  | cons unit units ih => exact ih (h.offer unit)

/-- The set difference takes no account from the units that stay. -/
theorem Consistent.release (h : s.Consistent) {position : ℕ} {w : Fin workerCount}
    (hHeld : s.held[position]? = some (unit, w)) :
    Consistent ⟨s.scheduler.releaseAccounts w unit.allAccounts, s.held.eraseIdx position⟩ := by
  obtain ⟨hPosition, hEntry⟩ := List.getElem?_eq_some_iff.mp hHeld
  have hSplit : s.held = s.held.take position ++ (unit, w) :: s.held.drop (position + 1) := by
    rw [← hEntry, List.getElem_cons_drop, List.take_append_drop]
  have hRest : s.held.eraseIdx position =
      s.held.take position ++ s.held.drop (position + 1) := List.eraseIdx_eq_take_drop_succ _ _
  have hLocked := h.locked
  have hApart := h.apart
  rw [hSplit] at hLocked hApart
  constructor
  · rw [hRest, releaseAccounts, dif_pos w.isLt]
    exact hLocked.release hApart
  · exact h.apart.sublist (List.eraseIdx_sublist _ _)

theorem Consistent.step (h : s.Consistent) (hStep : step s call = some t) : t.Consistent := by
  cases call with
  | schedule bundles looseTxs =>
    cases hStep
    exact h.offerAll _
  | reset =>
    cases hStep
    exact ⟨Holds.nil, List.Pairwise.nil⟩
  | release position =>
    obtain ⟨e, hHeld, rfl⟩ := Option.map_eq_some_iff.mp hStep
    exact h.release hHeld

theorem reachable_consistent (h : Reachable step (new workerCount) s) : s.Consistent :=
  h.invariant (fun _ _ _ hs hStep => Consistent.step hs hStep) (Consistent.new workerCount)

/-! ## Where the units go -/

/-- A unit with a free worker goes to the lowest one; a unit without changes nothing. -/
theorem Consistent.offer_cases (h : s.Consistent) (unit : SchedulableUnit) :
    (∃ w, LowestFree SchedulableUnit.allAccounts s.held unit w ∧
        (s.scheduler.scheduleUnit unit).2 = .ok (unit.assignment w) ∧
        (s.offer unit).held = s.held ++ [(unit, w)]) ∨
      (∀ v, ¬ Free SchedulableUnit.allAccounts s.held unit v) ∧
        (s.scheduler.scheduleUnit unit).2 = .error (.schedulerError "No available worker") ∧
        s.offer unit = s := by
  cases hFirst : firstFree s.scheduler.lockedAccounts unit.allAccounts with
  | none =>
    refine Or.inr ⟨h.locked.firstFree_eq_none_iff.mp hFirst, ?_, offer_of_none hFirst⟩
    rw [scheduleUnit_eq, hFirst]
  | some w =>
    refine Or.inl ⟨w, h.locked.firstFree_eq_some_iff.mp hFirst, ?_, ?_⟩
    · rw [scheduleUnit_eq, hFirst]
    · rw [offer_of_some hFirst]

/-- After any calls the lock sets are the accounts of the held units, which are disjoint
on each worker. In a further call each unit goes to the lowest worker that holds no unit
with a common account, and it is skipped, which changes no lock set, exactly when every
worker holds one. -/
theorem reachable_lowestFree (h : Reachable step (new workerCount) s) :
    s.Consistent ∧ ∀ bundles looseTxs,
      (∃ entries : Placement SchedulableUnit workerCount,
        s.offerAll (batchUnits bundles looseTxs) =
          ⟨(s.scheduler.schedule bundles looseTxs).1, s.held ++ entries⟩ ∧
        (s.scheduler.schedule bundles looseTxs).2 = entries.map fun e => e.1.assignment e.2) ∧
      ∀ pre unit post, batchUnits bundles looseTxs = pre ++ unit :: post →
        let t := s.offerAll pre
        t.Consistent ∧
          ((∃ w, LowestFree SchedulableUnit.allAccounts t.held unit w ∧
              (t.scheduler.scheduleUnit unit).2 = .ok (unit.assignment w) ∧
              (t.offer unit).held = t.held ++ [(unit, w)]) ∨
            (∀ v, ¬ Free SchedulableUnit.allAccounts t.held unit v) ∧
              (t.scheduler.scheduleUnit unit).2 =
                .error (.schedulerError "No available worker") ∧
              t.offer unit = t) := by
  have hConsistent := reachable_consistent h
  refine ⟨hConsistent, ?_⟩
  intro bundles looseTxs
  refine ⟨s.offerAll_eq bundles looseTxs, ?_⟩
  intro pre unit post _
  have hBefore := hConsistent.offerAll pre
  exact ⟨hBefore, hBefore.offer_cases unit⟩

/-- Two transactions on one worker, the first of which is released. -/
theorem reachable_lowestFree_release :
    let tx := fun signature account =>
      Transaction.new signature [AccountMeta.new (Pubkey.filled account) true] 1 1
    ∃ s, run step (new 1) [.schedule [] [tx "a" 1, tx "b" 2], .release 0] = some s ∧
      s.Consistent := by
  intro tx
  exact ⟨_, rfl, (reachable_lowestFree ⟨[.schedule [] [tx "a" 1, tx "b" 2], .release 0], rfl⟩).1⟩

end Session

end GreedyScheduler

end Blunder
