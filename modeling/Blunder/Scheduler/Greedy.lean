import Blunder.Foundation.FirstFit
import Blunder.Scheduler.Basic

/-!
# The greedy scheduler

`GreedyScheduler` keeps a set of locked accounts for each worker, across calls. A unit
goes to the first worker whose set it is disjoint from, and its accounts join the set.
A unit that no worker is free for is an error, which `schedule` skips.

* `schedule_eq`: `schedule` is first fit over the account sets of the batch, and the
  skipped units are the ones that first fit leaves out.
* `assigns_iff_all_placed`: the result has an assignment for every unit exactly when
  first fit leaves none out.
-/

namespace Blunder

open Foundation.FirstFit

/-- `worker_states`: the locked accounts of each worker. -/
structure GreedyScheduler (workerCount : ℕ) where
  lockedAccounts : Fin workerCount → Finset Pubkey

namespace GreedyScheduler

variable {workerCount : ℕ}

def new (workerCount : ℕ) : GreedyScheduler workerCount := ⟨fun _ => ∅⟩

def reset (_ : GreedyScheduler workerCount) : GreedyScheduler workerCount := ⟨fun _ => ∅⟩

/-- An unknown worker id is ignored. -/
def releaseAccounts (s : GreedyScheduler workerCount) (workerId : ℕ) (accounts : Finset Pubkey) :
    GreedyScheduler workerCount :=
  if h : workerId < workerCount then
    ⟨Function.update s.lockedAccounts ⟨workerId, h⟩ (s.lockedAccounts ⟨workerId, h⟩ \ accounts)⟩
  else s

def findAvailableWorker (accounts : Finset Pubkey) (states : Fin workerCount → Finset Pubkey) :
    Option (Fin workerCount) :=
  (List.finRange workerCount).find? fun idx => decide (Disjoint accounts (states idx))

/-- The common body of `schedule_bundle` and `schedule_transaction`. -/
def scheduleAccounts (s : GreedyScheduler workerCount) (accounts : Finset Pubkey) (unitId : String)
    (isBundle : Bool) : GreedyScheduler workerCount × Except MevError WorkerAssignment :=
  match findAvailableWorker accounts s.lockedAccounts with
  | none => (s, .error (.schedulerError "No available worker"))
  | some workerId =>
    (⟨Function.update s.lockedAccounts workerId (s.lockedAccounts workerId ∪ accounts)⟩,
      .ok { unitId, workerId, isBundle })

def scheduleBundle (s : GreedyScheduler workerCount) (bundle : Bundle) :
    GreedyScheduler workerCount × Except MevError WorkerAssignment :=
  s.scheduleAccounts bundle.allAccounts (toString bundle.id) true

def scheduleTransaction (s : GreedyScheduler workerCount) (tx : Transaction) :
    GreedyScheduler workerCount × Except MevError WorkerAssignment :=
  s.scheduleAccounts tx.allAccounts tx.signature false

/-- The loop of `schedule` over bundles or transactions: an error is skipped. -/
def scheduleEach {β : Type} (scheduleOne : GreedyScheduler workerCount → β →
    GreedyScheduler workerCount × Except MevError WorkerAssignment) :
    GreedyScheduler workerCount → List β → GreedyScheduler workerCount × List WorkerAssignment
  | s, [] => (s, [])
  | s, x :: xs =>
    match scheduleOne s x with
    | (s, .ok assignment) =>
      let (s, assignments) := scheduleEach scheduleOne s xs
      (s, assignment :: assignments)
    | (s, .error _) => scheduleEach scheduleOne s xs

/-- `GreedyScheduler::schedule`, which never returns an error of its own. -/
def schedule (s : GreedyScheduler workerCount) (bundles : List Bundle)
    (looseTxs : List Transaction) : GreedyScheduler workerCount × List WorkerAssignment :=
  let (s, bundleAssignments) := scheduleEach scheduleBundle s bundles
  let (s, txAssignments) := scheduleEach scheduleTransaction s looseTxs
  (s, bundleAssignments ++ txAssignments)

/-! ## First fit -/

/-- Both kinds of units are scheduled alike. -/
def scheduleUnit (s : GreedyScheduler workerCount) (unit : SchedulableUnit) :
    GreedyScheduler workerCount × Except MevError WorkerAssignment :=
  s.scheduleAccounts unit.allAccounts unit.unitId unit.isAtomic

/-- The account sets of a batch. -/
def accountSets (units : List SchedulableUnit) : List (Finset Pubkey) :=
  units.map SchedulableUnit.allAccounts

/-- The assignments of the units that have a worker. -/
def placed : List SchedulableUnit → List (Option (Fin workerCount)) → List WorkerAssignment
  | unit :: units, some w :: workers => unit.assignment w :: placed units workers
  | _ :: units, none :: workers => placed units workers
  | _, _ => []

/-- The units that have none. -/
def unplaced : List SchedulableUnit → List (Option (Fin workerCount)) → List SchedulableUnit
  | _ :: units, some _ :: workers => unplaced units workers
  | unit :: units, none :: workers => unit :: unplaced units workers
  | _, _ => []

theorem scheduleUnit_eq (s : GreedyScheduler workerCount) (unit : SchedulableUnit) :
    s.scheduleUnit unit =
      match firstFree s.lockedAccounts unit.allAccounts with
      | none => (s, .error (.schedulerError "No available worker"))
      | some w => (⟨put s.lockedAccounts w unit.allAccounts⟩, .ok (unit.assignment w)) :=
  rfl

theorem scheduleEach_map {β : Type} (f : β → SchedulableUnit) (s : GreedyScheduler workerCount)
    (xs : List β) :
    scheduleEach (fun s x => s.scheduleUnit (f x)) s xs = scheduleEach scheduleUnit s (xs.map f) := by
  induction xs generalizing s with
  | nil => rfl
  | cons x xs ih => simp only [List.map_cons, scheduleEach, ih]

theorem scheduleEach_append (s : GreedyScheduler workerCount) (xs ys : List SchedulableUnit) :
    scheduleEach scheduleUnit s (xs ++ ys) =
      ((scheduleEach scheduleUnit (scheduleEach scheduleUnit s xs).1 ys).1,
        (scheduleEach scheduleUnit s xs).2 ++
          (scheduleEach scheduleUnit (scheduleEach scheduleUnit s xs).1 ys).2) := by
  induction xs generalizing s with
  | nil => rfl
  | cons x xs ih =>
    rw [List.cons_append, scheduleEach, scheduleEach]
    split <;> simp only [ih, List.cons_append]

/-- One pass over the units is first fit over their account sets. -/
theorem scheduleEach_eq (s : GreedyScheduler workerCount) (units : List SchedulableUnit) :
    scheduleEach scheduleUnit s units =
      (⟨fill s.lockedAccounts (accountSets units)⟩,
        placed units (fit s.lockedAccounts (accountSets units))) := by
  induction units generalizing s with
  | nil => rfl
  | cons unit units ih =>
    rw [scheduleEach, scheduleUnit_eq, accountSets, List.map_cons, fit, fill]
    cases firstFree s.lockedAccounts unit.allAccounts with
    | none => exact ih s
    | some w => simp only [ih, placed, accountSets]

theorem schedule_eq (s : GreedyScheduler workerCount) (bundles : List Bundle)
    (looseTxs : List Transaction) :
    s.schedule bundles looseTxs =
      (⟨fill s.lockedAccounts (accountSets (batchUnits bundles looseTxs))⟩,
        placed (batchUnits bundles looseTxs)
          (fit s.lockedAccounts (accountSets (batchUnits bundles looseTxs)))) := by
  rw [← scheduleEach_eq, batchUnits, scheduleEach_append, ← scheduleEach_map, ← scheduleEach_map]
  rfl

/-- The assignments read no more of a unit than its name and kind. -/
theorem placed_congr {β : Type} (view : SchedulableUnit → β)
    (hView : ∀ unit unit' workerId, view unit = view unit' →
      unit.assignment workerId = unit'.assignment workerId)
    {units units' : List SchedulableUnit} (hUnits : units.map view = units'.map view)
    (workers : List (Option (Fin workerCount))) : placed units workers = placed units' workers := by
  induction units generalizing units' workers with
  | nil => rw [List.map_eq_nil_iff.mp hUnits.symm]
  | cons unit units ih =>
    cases units' with
    | nil => cases hUnits
    | cons unit' units' =>
      obtain ⟨hHead, hTail⟩ := List.cons.inj hUnits
      cases workers with
      | nil => rfl
      | cons w workers =>
        cases w with
        | none => exact ih hTail workers
        | some w => rw [placed, placed, hView unit unit' w hHead, ih hTail workers]

theorem placed_append {units units' : List SchedulableUnit}
    {workers workers' : List (Option (Fin workerCount))} (hLength : workers.length = units.length) :
    placed (units ++ units') (workers ++ workers') = placed units workers ++ placed units' workers' := by
  induction units generalizing workers with
  | nil =>
    rw [List.length_eq_zero_iff.mp hLength]
    simp [placed]
  | cons unit units ih =>
    cases workers with
    | nil => simp at hLength
    | cons w workers =>
      have hRest := ih (Nat.succ_injective hLength)
      cases w with
      | none => exact hRest
      | some w => exact congrArg (unit.assignment w :: ·) hRest

/-- Each unit either has a worker or is left out. -/
theorem placed_unplaced_perm {units : List SchedulableUnit}
    {workers : List (Option (Fin workerCount))} (hLength : workers.length = units.length) :
    ((placed units workers).map WorkerAssignment.unitId ++
      (unplaced units workers).map SchedulableUnit.unitId).Perm
        (units.map SchedulableUnit.unitId) := by
  induction units generalizing workers with
  | nil => simp [placed, unplaced]
  | cons unit units ih =>
    cases workers with
    | nil => simp at hLength
    | cons w workers =>
      have hRest := ih (Nat.succ_injective hLength)
      cases w with
      | none => exact List.perm_middle.trans (hRest.cons _)
      | some w => exact hRest.cons _

theorem placed_workerId_lt (units : List SchedulableUnit) (workers : List (Option (Fin workerCount))) :
    ∀ a ∈ placed units workers, a.workerId < workerCount := by
  induction units, workers using placed.induct with
  | case1 unit units w workers ih => exact List.forall_mem_cons.mpr ⟨w.isLt, ih⟩
  | case2 unit units workers ih => exact ih
  | case3 units workers h1 h2 =>
    intro a ha
    simp [placed] at ha

/-! ## Complete results -/

theorem length_placed_le (units : List SchedulableUnit) (workers : List (Option (Fin workerCount))) :
    (placed units workers).length ≤ units.length := by
  induction units, workers using placed.induct with
  | case1 unit units w workers ih => simpa [placed] using ih
  | case2 unit units workers ih =>
    rw [placed, List.length_cons]
    omega
  | case3 units workers h1 h2 => simp [placed]

/-- A unit without a worker has no assignment. -/
theorem length_placed_eq_iff {units : List SchedulableUnit}
    {workers : List (Option (Fin workerCount))} (hLength : workers.length = units.length) :
    (placed units workers).length = units.length ↔ ∀ w ∈ workers, w ≠ none := by
  induction units, workers using placed.induct with
  | case1 unit units w workers ih =>
    rw [placed, List.length_cons, List.length_cons, Nat.add_right_cancel_iff,
      ih (by simpa using hLength)]
    simp
  | case2 unit units workers ih =>
    have hLe := length_placed_le units workers
    rw [placed, List.length_cons]
    constructor
    · intro hEq
      omega
    · intro hAll
      exact absurd rfl (hAll none List.mem_cons_self)
  | case3 units workers h1 h2 =>
    cases units with
    | nil =>
      rw [List.length_nil, List.length_eq_zero_iff] at hLength
      subst hLength
      simp [placed]
    | cons unit units =>
      cases workers with
      | nil => simp at hLength
      | cons w workers =>
        cases w with
        | none => exact absurd rfl (h2 _ _ _ rfl)
        | some w => exact absurd rfl (h1 _ _ _ _ rfl)

theorem placed_replicate_none (units : List SchedulableUnit) (k : ℕ) :
    placed units (List.replicate k (none : Option (Fin workerCount))) = [] := by
  induction units generalizing k with
  | nil => cases k <;> rfl
  | cons unit units ih =>
    cases k with
    | zero => rfl
    | succ k => exact ih k

theorem placed_replicate_some (units : List SchedulableUnit) (w : Fin workerCount) :
    placed units (List.replicate units.length (some w)) = units.map (·.assignment w) := by
  induction units with
  | nil => rfl
  | cons unit units ih => exact congrArg (unit.assignment w :: ·) ih

theorem placed_forall₂ {units : List SchedulableUnit} {workers : List (Option (Fin workerCount))}
    (hLength : workers.length = units.length) (hAll : ∀ w ∈ workers, w ≠ none) :
    List.Forall₂ (fun unit a => ∃ w < workerCount, a = SchedulableUnit.assignment unit w)
      units (placed units workers) := by
  induction units generalizing workers with
  | nil => simp [placed]
  | cons unit units ih =>
    cases workers with
    | nil => simp at hLength
    | cons w workers =>
      cases w with
      | none => exact absurd rfl (hAll none List.mem_cons_self)
      | some w =>
        refine List.Forall₂.cons ⟨w, w.isLt, rfl⟩ (ih (by simpa using hLength) ?_)
        intro w hw
        exact hAll w (List.mem_cons_of_mem _ hw)

/-- The result is complete exactly when first fit finds a worker for every unit. -/
theorem assigns_iff_all_placed (s : GreedyScheduler workerCount) (bundles : List Bundle)
    (looseTxs : List Transaction) :
    Assigns workerCount (batchUnits bundles looseTxs) (s.schedule bundles looseTxs).2 ↔
      ∀ w ∈ fit s.lockedAccounts (accountSets (batchUnits bundles looseTxs)), w ≠ none := by
  have hLength : (fit s.lockedAccounts (accountSets (batchUnits bundles looseTxs))).length =
      (batchUnits bundles looseTxs).length := by
    rw [length_fit, accountSets, List.length_map]
  rw [schedule_eq]
  constructor
  · rintro ⟨order, hOrder, hAll⟩
    rw [← length_placed_eq_iff hLength, ← hAll.length_eq, hOrder.length_eq]
  · intro hAll
    exact ⟨_, List.Perm.refl _, placed_forall₂ hLength hAll⟩

end GreedyScheduler

end Blunder
