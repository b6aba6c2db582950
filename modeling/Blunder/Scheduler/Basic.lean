import Blunder.Core.Basic
import Mathlib.Data.List.Forall2

/-!
# Batches and their assignments

What the schedulers have in common: the order in which they read a batch, how a call
panics, and what it means that a list of assignments is one for the batch.
-/

namespace Blunder

/-- How a call panics, or fails to finish. -/
inductive Panic
  | subtractOverflow
  | indexOutOfBounds
  | unfinished
deriving DecidableEq

/-- The units of a batch in the order in which the schedulers read them. -/
def batchUnits (bundles : List Bundle) (looseTxs : List Transaction) : List SchedulableUnit :=
  bundles.map .bundle ++ looseTxs.map .transaction

theorem length_batchUnits (bundles : List Bundle) (looseTxs : List Transaction) :
    (batchUnits bundles looseTxs).length = bundles.length + looseTxs.length := by
  simp [batchUnits]

/-- The assignments are those of the units, taken in some order, to workers below
`workerCount`. -/
def Assigns (workerCount : ℕ) (units : List SchedulableUnit)
    (assignments : List WorkerAssignment) : Prop :=
  ∃ order : List SchedulableUnit, order.Perm units ∧
    List.Forall₂ (fun unit a => ∃ w < workerCount, a = SchedulableUnit.assignment unit w)
      order assignments

section Assigns

variable {workerCount : ℕ} {units : List SchedulableUnit} {assignments : List WorkerAssignment}

/-- What an assignment takes over from its unit occurs as often as among the units. -/
theorem Assigns.map_perm {β : Type} {f : SchedulableUnit → β} {g : WorkerAssignment → β}
    (h : Assigns workerCount units assignments)
    (hSame : ∀ (unit : SchedulableUnit) (w : ℕ), g (unit.assignment w) = f unit) :
    (assignments.map g).Perm (units.map f) := by
  obtain ⟨order, hOrder, hAll⟩ := h
  refine List.Perm.trans ?_ (hOrder.map _)
  clear hOrder
  induction hAll with
  | nil => exact List.Perm.nil
  | cons hHead _ ih =>
    obtain ⟨w, -, rfl⟩ := hHead
    rw [List.map_cons, List.map_cons, hSame]
    exact ih.cons _

theorem Assigns.unitId_perm (h : Assigns workerCount units assignments) :
    (assignments.map WorkerAssignment.unitId).Perm (units.map SchedulableUnit.unitId) :=
  h.map_perm fun _ _ => rfl

theorem Assigns.workerId_lt (h : Assigns workerCount units assignments) :
    ∀ a ∈ assignments, a.workerId < workerCount := by
  obtain ⟨order, -, hAll⟩ := h
  induction hAll with
  | nil => exact nofun
  | cons hHead _ ih =>
    obtain ⟨w, hw, rfl⟩ := hHead
    exact List.forall_mem_cons.mpr ⟨hw, ih⟩

end Assigns

end Blunder
