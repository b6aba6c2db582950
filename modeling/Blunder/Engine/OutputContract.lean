import Blunder.Core.Client
import Blunder.Engine.SchedulerEngine

/-!
# Whether the internal path keeps the output contract

What an external scheduler answers is validated: every assignment names an item that was
sent, none twice, and a worker in range. The internal path is not validated. Its
transactions keep their ids, but the id of a bundle is read as a `u64`, with `0` in place
of what cannot be read, and printed again.

* `valid_iff`: the assignments are valid exactly when every bundle keeps its id in this,
  or takes the id of a transaction that gets no worker.
* `idsKept_iff_of_le`: up to 2000 items the second does not occur.
-/

namespace Blunder.SchedulerEngine

open Foundation Foundation.FirstFit

variable {workerCount : ℕ}

/-- The id under which an item is scheduled. -/
def scheduledId : ExecutionUnitData → String
  | .transaction id _ _ => id
  | .bundle id _ _ _ => toString ((Decimal.parseU64 id).getD 0)

/-- The transactions of a large batch that first fit finds no worker for. -/
def leftOut (scheduler : AdaptiveScheduler workerCount) (items : List ExecutionUnitData) :
    List SchedulableUnit :=
  let units := (convertExecutionUnits items).2.map SchedulableUnit.transaction
  if items.length ≤ 2000 then []
  else GreedyScheduler.unplaced units
    (fit scheduler.greedy.lockedAccounts (GreedyScheduler.accountSets units))

/-- The bundles are scheduled under distinct ids, each under its own or that of a
transaction that is left out. -/
structure IdsKept (scheduler : AdaptiveScheduler workerCount) (items : List ExecutionUnitData) :
    Prop where
  distinct : ((items.filter ExecutionUnitData.isBundle).map scheduledId).Nodup
  own : ∀ item ∈ items.filter ExecutionUnitData.isBundle, scheduledId item = item.id ∨
    scheduledId item ∈ (leftOut scheduler items).map SchedulableUnit.unitId

/-! ## Renaming -/

/-- An id that was printed is printed again as it is. -/
theorem scheduledId_of_eq {item other : ExecutionUnitData} (hItem : item.isBundle)
    (hOther : other.isBundle) (hEq : scheduledId item = other.id) :
    scheduledId other = scheduledId item := by
  cases item with
  | transaction => cases hItem
  | bundle id tip accounts numTransactions =>
    cases other with
    | transaction => cases hOther
    | bundle id' tip' accounts' numTransactions' =>
      simp only [scheduledId, ExecutionUnitData.id] at hEq ⊢
      rw [← hEq, Decimal.parseU64_toString]
      rfl

/-- Names `f` in place of the own names `g` are distinct and known exactly when each is
the own one or is not otherwise used. -/
theorem renamed_valid_iff {β : Type} {f g : β → String} {bundles : List β} {used left : List String}
    (hNames : (bundles.map g ++ (used ++ left)).Nodup)
    (hAgain : ∀ b ∈ bundles, ∀ c ∈ bundles, f b = g c → f c = f b) :
    ((bundles.map f ++ used).Nodup ∧
        ∀ name ∈ bundles.map f ++ used, name ∈ bundles.map g ++ (used ++ left)) ↔
      (bundles.map f).Nodup ∧ ∀ b ∈ bundles, f b = g b ∨ f b ∈ left := by
  obtain ⟨-, hRest, hApart⟩ := List.nodup_append.mp hNames
  obtain ⟨hUsed, -, hUsedLeft⟩ := List.nodup_append.mp hRest
  constructor
  · rintro ⟨hNodup, hKnown⟩
    obtain ⟨hDistinct, -, hDisjoint⟩ := List.nodup_append.mp hNodup
    refine ⟨hDistinct, fun b hb => ?_⟩
    have hbNames : f b ∈ bundles.map f := List.mem_map_of_mem hb
    have hbKnown := hKnown (f b) (List.mem_append_left _ hbNames)
    rw [List.mem_append, List.mem_append] at hbKnown
    rcases hbKnown with hOwn | hTaken | hLeft
    · obtain ⟨c, hc, hcb⟩ := List.mem_map.mp hOwn
      have hSame : b = c :=
        List.inj_on_of_nodup_map hDistinct hb hc (hAgain b hb c hc hcb.symm).symm
      exact Or.inl (hSame ▸ hcb.symm)
    · exact absurd rfl (hDisjoint _ hbNames _ hTaken)
    · exact Or.inr hLeft
  · rintro ⟨hDistinct, hOwn⟩
    constructor
    · refine List.nodup_append.mpr ⟨hDistinct, hUsed, ?_⟩
      intro name hName other hOther
      obtain ⟨b, hb, rfl⟩ := List.mem_map.mp hName
      rcases hOwn b hb with hSelf | hLeft
      · rw [hSelf]
        exact hApart _ (List.mem_map_of_mem hb) _ (List.mem_append_left _ hOther)
      · exact (hUsedLeft _ hOther _ hLeft).symm
    · intro name hName
      rcases List.mem_append.mp hName with hName | hName
      · obtain ⟨b, hb, rfl⟩ := List.mem_map.mp hName
        rcases hOwn b hb with hSelf | hLeft
        · exact List.mem_append_left _ (hSelf ▸ List.mem_map_of_mem hb)
        · exact List.mem_append_right _ (List.mem_append_right _ hLeft)
      · exact List.mem_append_right _ (List.mem_append_left _ hName)

/-! ## The converted batch -/

theorem convertExecutionUnits_bundles (items : List ExecutionUnitData) :
    (convertExecutionUnits items).1.map (fun bundle => toString bundle.id) =
      (items.filter ExecutionUnitData.isBundle).map scheduledId := by
  induction items with
  | nil => rfl
  | cons item items ih =>
    cases item with
    | transaction => exact ih
    | bundle id tip accounts numTransactions => exact congrArg (_ :: ·) ih

theorem convertExecutionUnits_transactions (items : List ExecutionUnitData) :
    (convertExecutionUnits items).2.map Transaction.signature =
      (items.filter fun item => !item.isBundle).map ExecutionUnitData.id := by
  induction items with
  | nil => rfl
  | cons item items ih =>
    cases item with
    | transaction id priority accounts => exact congrArg (id :: ·) ih
    | bundle => exact ih

/-- The bundles come without transactions. -/
theorem convertExecutionUnits_accounts (items : List ExecutionUnitData) :
    ∀ bundle ∈ (convertExecutionUnits items).1, bundle.allAccounts = ∅ := by
  induction items with
  | nil =>
    intro bundle h
    cases h
  | cons item items ih =>
    cases item with
    | transaction => exact ih
    | bundle id tip accounts numTransactions => exact List.forall_mem_cons.mpr ⟨rfl, ih⟩

theorem length_convertExecutionUnits (items : List ExecutionUnitData) :
    (batchUnits (convertExecutionUnits items).1 (convertExecutionUnits items).2).length =
      items.length := by
  rw [length_batchUnits]
  induction items with
  | nil => rfl
  | cons item items ih =>
    cases item with
    | transaction =>
      rw [List.length_cons, ← ih]
      rfl
    | bundle =>
      rw [List.length_cons, ← ih]
      exact Nat.succ_add _ _

/-! ## The ids of the assignments -/

/-- What the greedy scheduler assigns: all bundles, and the transactions that fit. -/
theorem greedy_schedule_converted (hCount : 1 ≤ workerCount) (greedy : GreedyScheduler workerCount)
    (items : List ExecutionUnitData) :
    let batch := convertExecutionUnits items
    let units := batch.2.map SchedulableUnit.transaction
    (greedy.schedule batch.1 batch.2).2 =
      (batch.1.map SchedulableUnit.bundle).map (·.assignment 0) ++
        GreedyScheduler.placed units
          (fit greedy.lockedAccounts (GreedyScheduler.accountSets units)) := by
  intro batch units
  have hEmpty : ∀ accounts ∈ GreedyScheduler.accountSets (batch.1.map SchedulableUnit.bundle),
      accounts = ∅ := by
    intro accounts hAccounts
    obtain ⟨unit, hUnit, rfl⟩ := List.mem_map.mp hAccounts
    obtain ⟨bundle, hBundle, rfl⟩ := List.mem_map.mp hUnit
    exact convertExecutionUnits_accounts items bundle hBundle
  have hLength : (GreedyScheduler.accountSets (batch.1.map SchedulableUnit.bundle)).length =
      (batch.1.map SchedulableUnit.bundle).length := List.length_map _
  have hSplit : GreedyScheduler.accountSets (batchUnits batch.1 batch.2) =
      GreedyScheduler.accountSets (batch.1.map SchedulableUnit.bundle) ++
        GreedyScheduler.accountSets units := List.map_append
  rw [GreedyScheduler.schedule_eq, hSplit, fit_append_of_empty hCount hEmpty, hLength]
  simp only [batchUnits]
  rw [GreedyScheduler.placed_append List.length_replicate, GreedyScheduler.placed_replicate_some]

/-- The assignments name the bundles and the transactions that are not left out. -/
theorem schedule_ids (heap : PrioGraphScheduler.BinaryHeap) (hCount : 1 ≤ workerCount)
    {scheduler : AdaptiveScheduler workerCount}
    (hThreshold : scheduler.loadMonitor.highThreshold = 2000) (items : List ExecutionUnitData) :
    ∃ assignments used, (schedule heap scheduler items).2 = .ok assignments ∧
      (∀ a ∈ assignments, a.workerId < workerCount) ∧
      (assignments.map WorkerAssignment.unitId).Perm
        ((items.filter ExecutionUnitData.isBundle).map scheduledId ++ used) ∧
      (used ++ (leftOut scheduler items).map SchedulableUnit.unitId).Perm
        ((items.filter fun item => !item.isBundle).map ExecutionUnitData.id) := by
  let batch := convertExecutionUnits items
  let units := batch.2.map SchedulableUnit.transaction
  have hBundles : (batch.1.map SchedulableUnit.bundle).map SchedulableUnit.unitId =
      (items.filter ExecutionUnitData.isBundle).map scheduledId := by
    rw [List.map_map]
    exact convertExecutionUnits_bundles items
  have hTxs : units.map SchedulableUnit.unitId =
      (items.filter fun item => !item.isBundle).map ExecutionUnitData.id := by
    rw [List.map_map]
    exact convertExecutionUnits_transactions items
  have hLength : (batchUnits batch.1 batch.2).length = items.length :=
    length_convertExecutionUnits items
  rw [← hBundles, ← hTxs]
  by_cases hLe : items.length ≤ 2000
  · obtain ⟨assignments, hSchedule, hAssigns⟩ :=
      PrioGraphScheduler.schedule_spec heap hCount batch.1 batch.2
    refine ⟨assignments, units.map SchedulableUnit.unitId, ?_, hAssigns.workerId_lt, ?_, ?_⟩
    · show (scheduler.schedule heap batch.1 batch.2).2 = .ok assignments
      rw [AdaptiveScheduler.schedule_of_le hThreshold (hLength.trans_le hLe)]
      exact hSchedule
    · rw [← List.map_append]
      exact hAssigns.unitId_perm
    · simp only [leftOut, if_pos hLe, List.map_nil, List.append_nil]
      exact List.Perm.refl _
  · let workers := fit scheduler.greedy.lockedAccounts (GreedyScheduler.accountSets units)
    have hWorkers : workers.length = units.length := by
      rw [length_fit, GreedyScheduler.accountSets, List.length_map]
    refine ⟨(batch.1.map SchedulableUnit.bundle).map (·.assignment 0) ++
      GreedyScheduler.placed units workers,
      (GreedyScheduler.placed units workers).map WorkerAssignment.unitId, ?_, ?_, ?_, ?_⟩
    · show (scheduler.schedule heap batch.1 batch.2).2 = _
      rw [AdaptiveScheduler.schedule_of_gt hThreshold (by omega)]
      exact congrArg Except.ok (greedy_schedule_converted hCount scheduler.greedy items)
    · intro a ha
      rcases List.mem_append.mp ha with ha | ha
      · obtain ⟨unit, -, rfl⟩ := List.mem_map.mp ha
        exact hCount
      · exact GreedyScheduler.placed_workerId_lt units workers a ha
    · rw [List.map_append, List.map_map]
      exact List.Perm.refl _
    · simp only [leftOut, if_neg hLe]
      exact GreedyScheduler.placed_unplaced_perm hWorkers

/-- Validity reads the ids in any order. -/
theorem valid_iff_ids {assignments : List WorkerAssignment} {items : List ExecutionUnitData}
    {names ids : List String} (hInRange : ∀ a ∈ assignments, a.workerId < workerCount)
    (hNames : (assignments.map WorkerAssignment.unitId).Perm names)
    (hItems : ids.Perm (items.map ExecutionUnitData.id)) :
    ExternalSchedulerClient.Valid assignments items workerCount ↔
      names.Nodup ∧ ∀ name ∈ names, name ∈ ids := by
  constructor
  · intro h
    refine ⟨hNames.nodup_iff.mp h.distinct, fun name hName => ?_⟩
    obtain ⟨a, ha, rfl⟩ := List.mem_map.mp (hNames.mem_iff.mpr hName)
    exact hItems.mem_iff.mpr (List.mem_map.mpr (h.known a ha))
  · rintro ⟨hNodup, hKnown⟩
    refine ⟨hNames.nodup_iff.mpr hNodup, fun a ha => ?_, hInRange⟩
    have hName := hNames.mem_iff.mp (List.mem_map_of_mem ha)
    exact List.mem_map.mp (hItems.mem_iff.mp (hKnown _ hName))

/-! ## Main results -/

/-- In a batch that the priority graph takes, the ids are kept if printing gives back the
text of each id. -/
theorem idsKept_iff_of_le {scheduler : AdaptiveScheduler workerCount}
    {items : List ExecutionUnitData} (hDistinct : (items.map ExecutionUnitData.id).Nodup)
    (hLe : items.length ≤ 2000) :
    IdsKept scheduler items ↔ ∀ item ∈ items, scheduledId item = item.id := by
  constructor
  · intro h item hItem
    cases hKind : item.isBundle with
    | false =>
      cases item with
      | transaction => rfl
      | bundle => cases hKind
    | true =>
      have hOwn := h.own item (List.mem_filter.mpr ⟨hItem, hKind⟩)
      simpa only [leftOut, if_pos hLe, List.map_nil, List.not_mem_nil, or_false] using hOwn
  · intro h
    have hBundles : ∀ item ∈ items.filter ExecutionUnitData.isBundle, scheduledId item = item.id :=
      fun item hItem => h item (List.mem_filter.mp hItem).1
    refine ⟨?_, fun item hItem => Or.inl (hBundles item hItem)⟩
    rw [List.map_congr_left hBundles]
    exact hDistinct.sublist (List.filter_sublist.map _)

/-- Whatever was scheduled before, the assignments for items with distinct ids pass the
validation exactly when the ids are kept. -/
theorem valid_iff (heap : PrioGraphScheduler.BinaryHeap) (hCount : 1 ≤ workerCount)
    (calls : List (List ExecutionUnitData)) (items : List ExecutionUnitData)
    (hDistinct : (items.map ExecutionUnitData.id).Nodup) :
    (∃ assignments, (schedule heap (afterCalls heap workerCount calls) items).2 = .ok assignments ∧
        ExternalSchedulerClient.validateAssignments assignments items workerCount = .ok ()) ↔
      IdsKept (afterCalls heap workerCount calls) items := by
  obtain ⟨assignments, used, hSchedule, hInRange, hIds, hUsed⟩ :=
    schedule_ids heap hCount (afterCalls_threshold heap workerCount calls) items
  have hItems : ((items.filter ExecutionUnitData.isBundle).map ExecutionUnitData.id ++
      (used ++ (leftOut (afterCalls heap workerCount calls) items).map SchedulableUnit.unitId)).Perm
        (items.map ExecutionUnitData.id) := by
    refine (hUsed.append_left _).trans ?_
    rw [← List.map_append]
    exact (List.filter_append_perm ExecutionUnitData.isBundle items).map _
  have hRenamed := renamed_valid_iff (f := scheduledId) (hItems.nodup_iff.mpr hDistinct)
    fun b hb c hc => scheduledId_of_eq (List.mem_filter.mp hb).2 (List.mem_filter.mp hc).2
  rw [hSchedule]
  simp only [Except.ok.injEq, exists_eq_left', ExternalSchedulerClient.validateAssignments_eq_ok_iff]
  rw [valid_iff_ids hInRange hIds hItems, hRenamed]
  constructor
  · rintro ⟨hDistinct, hOwn⟩
    exact ⟨hDistinct, hOwn⟩
  · intro h
    exact ⟨h.distinct, h.own⟩

/-- The bundle of the tests. -/
def bundle1 : ExecutionUnitData := .bundle "bundle1" 50000 [] 2

/-- A transaction and a bundle whose id is a number. -/
theorem valid_iff_numericId :
    let heap : PrioGraphScheduler.BinaryHeap := fun _ => PriorityQueue.MaxHeap.ofList _
    let items : List ExecutionUnitData := [.transaction "tx1" 1000 [], .bundle "7" 50000 [] 2]
    ∃ assignments, (schedule heap (afterCalls heap 2 []) items).2 = .ok assignments ∧
      ExternalSchedulerClient.validateAssignments assignments items 2 = .ok () := by
  intro heap items
  refine (valid_iff heap (by decide) [] items (by decide)).mpr ?_
  exact (idsKept_iff_of_le (by decide) (by decide)).mpr (by decide +kernel)

/-- The bundle `"bundle1"` is assigned under the id `"0"`. -/
theorem not_valid :
    ¬ ∀ (heap : PrioGraphScheduler.BinaryHeap) (workerCount : ℕ), 1 ≤ workerCount →
      ∀ (calls : List (List ExecutionUnitData)) (items : List ExecutionUnitData),
        (items.map ExecutionUnitData.id).Nodup → ∃ assignments,
          (schedule heap (afterCalls heap workerCount calls) items).2 = .ok assignments ∧
          ExternalSchedulerClient.validateAssignments assignments items workerCount = .ok () := by
  intro hAll
  let heap : PrioGraphScheduler.BinaryHeap := fun _ => PriorityQueue.MaxHeap.ofList _
  obtain ⟨assignments, hSchedule, hValid⟩ := hAll heap 2 (by decide) [] [bundle1] (by decide)
  have hRun : (schedule heap (afterCalls heap 2 []) [bundle1]).2 =
      .ok [{ unitId := "0", workerId := 0, isBundle := true }] := by decide +kernel
  cases hRun.symm.trans hSchedule
  have hInvalid : ExternalSchedulerClient.validateAssignments
      [{ unitId := "0", workerId := 0, isBundle := true }] [bundle1] 2 =
        .error (.invalidAssignment "Unknown unit_id: 0") := by decide +kernel
  cases hInvalid.symm.trans hValid

end Blunder.SchedulerEngine
