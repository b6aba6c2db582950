import Blunder.Core.Client
import Blunder.SchedulerExternal.RoundRobin

/-!
# The contract between server and client

The round-robin scheduler answers for the items it is given, and the client's validation
checks the answer against the items it sent. Of the three errors of the validation only
the duplicate can occur.

* `schedule_validated`: the client accepts the answer exactly when the ids are distinct.
-/

namespace Blunder

namespace ExternalSchedulerClient

variable {items : List ExecutionUnitData} {workerCount : ℕ} {assignments : List WorkerAssignment}

/-- Known ids and existing workers leave one error. -/
theorem validateFrom_ok_or_duplicate (hKnown : ∀ a ∈ assignments, a.unitId ∈ items.map ExecutionUnitData.id)
    (hRange : ∀ a ∈ assignments, a.workerId < workerCount) (seen : Finset String) :
    validateFrom items workerCount seen assignments = .ok () ∨
      validateFrom items workerCount seen assignments =
        .error (.invalidAssignment "Duplicate assignment") := by
  induction assignments generalizing seen with
  | nil => exact Or.inl rfl
  | cons a assignments ih =>
    obtain ⟨hId, hIds⟩ := List.forall_mem_cons.mp hKnown
    obtain ⟨hWorker, hWorkers⟩ := List.forall_mem_cons.mp hRange
    rw [validateFrom]
    by_cases hSeen : a.unitId ∈ seen
    · rw [if_pos hSeen]
      exact Or.inr rfl
    · rw [if_neg hSeen, if_neg (not_not.mpr hId), if_neg (Nat.not_le.mpr hWorker)]
      exact ih hIds hWorkers _

theorem validateAssignments_of_known
    (hKnown : ∀ a ∈ assignments, a.unitId ∈ items.map ExecutionUnitData.id)
    (hRange : ∀ a ∈ assignments, a.workerId < workerCount) :
    validateAssignments assignments items workerCount =
      if (assignments.map WorkerAssignment.unitId).Nodup then .ok ()
      else .error (.invalidAssignment "Duplicate assignment") := by
  split
  · rename_i hDistinct
    exact validateAssignments_eq_ok_iff.mpr
      ⟨hDistinct, fun a ha => List.mem_map.mp (hKnown a ha), hRange⟩
  · rename_i hDuplicate
    apply (validateFrom_ok_or_duplicate hKnown hRange ∅).resolve_left
    intro hOk
    exact hDuplicate (validateAssignments_eq_ok_iff.mp hOk).distinct

end ExternalSchedulerClient

namespace RoundRobinScheduler

open ExternalSchedulerClient

variable {s : RoundRobinScheduler} {items : List ExecutionUnitData} {workerCount : ℕ}

/-- What an assignment takes over from its item, in the order of the items. -/
theorem schedule_map {β : Type} {f : ExecutionUnitData → β} {g : WorkerAssignment → β}
    (hCount : 1 ≤ workerCount) (hSame : ∀ (item : ExecutionUnitData) w, g (item.assignment w) = f item) :
    (s.schedule items workerCount).2.map g = items.map f := by
  have hAll := s.schedule_forall₂ items hCount
  generalize (s.schedule items workerCount).2 = assignments at hAll ⊢
  induction hAll with
  | nil => rfl
  | cons hHead _ ih =>
    obtain ⟨w, -, rfl⟩ := hHead
    rw [List.map_cons, List.map_cons, hSame, ih]

theorem schedule_workerId_lt (hCount : 1 ≤ workerCount) :
    ∀ a ∈ (s.schedule items workerCount).2, a.workerId < workerCount := by
  intro a ha
  obtain ⟨i, hi, rfl⟩ := List.mem_iff_getElem.mp ha
  have hAll := s.schedule_forall₂ items hCount
  obtain ⟨w, hw, hAssign⟩ := hAll.get (by rw [hAll.length_eq]; exact hi) hi
  rw [List.get_eq_getElem, List.get_eq_getElem] at hAssign
  rw [hAssign]
  exact hw

/-- The answer has one assignment for each item, in order and with its kind, and the
client accepts it unless two items have the same id. -/
theorem schedule_validated (s : RoundRobinScheduler) (items : List ExecutionUnitData)
    (hCount : 1 ≤ workerCount) :
    (s.schedule items workerCount).2.map (fun a => (a.unitId, a.isBundle)) =
        items.map (fun item => (item.id, item.isBundle)) ∧
      validateAssignments (s.schedule items workerCount).2 items workerCount =
        if (items.map ExecutionUnitData.id).Nodup then .ok ()
        else .error (.invalidAssignment "Duplicate assignment") := by
  have hIds : (s.schedule items workerCount).2.map WorkerAssignment.unitId =
      items.map ExecutionUnitData.id := schedule_map hCount fun _ _ => rfl
  refine ⟨schedule_map hCount fun _ _ => rfl, ?_⟩
  rw [validateAssignments_of_known _ (schedule_workerId_lt hCount), hIds]
  intro a ha
  rw [← hIds]
  exact List.mem_map_of_mem ha

/-- Two items with one id, on two workers. -/
theorem schedule_validated_sameId :
    let items := [.transaction "tx1" 1000 [], ExecutionUnitData.bundle "tx1" 100000 [] 3]
    validateAssignments (new.schedule items 2).2 items 2 =
      .error (.invalidAssignment "Duplicate assignment") := by
  intro items
  have hDuplicate : ¬ (items.map ExecutionUnitData.id).Nodup := by decide
  have hResult := (schedule_validated new items (show 1 ≤ 2 by omega)).2
  rwa [if_neg hDuplicate] at hResult

end RoundRobinScheduler

end Blunder
