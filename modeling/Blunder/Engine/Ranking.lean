import Blunder.Engine.Delivery
import Blunder.Engine.PriorityFormulas
import Blunder.Scheduler.PriorityOrder

/-!
# Whether the ranking survives scheduling

`process_batch` ranks the units and drops the ranked list; the order on the queues comes
from the scheduler. The priority graph orders by its own priority, which is the score
except for bundles without compute units. The greedy scheduler takes the units as the
maps give them out, so any two that can meet on a worker have to be in order.

* `tipsLast_iff`: the batches in which the priorities order the scores.
* `ranked_run_iff`: only the complete plan has to be looked at.
* `firstFitRanked_iff_spread`: the large batches that are ranked in every order.
* `rankingSurvives_iff`: the batches whose ranking survives in every run.
-/

namespace Blunder.TpuPipeline

open Foundation Foundation.FirstFit Foundation.HashMap Foundation.Transition AsyncWorkerPool
  Prioritizer

variable {workerCount : ℕ}

/-! ## Score and priority -/

/-- A bundle without compute units comes after every unit with a score. -/
def TipsLast (units : List SchedulableUnit) : Prop :=
  ∀ bundle, .bundle bundle ∈ units → bundle.totalComputeUnits = 0 →
    ∀ unit ∈ units, calculateScore unit ≠ 0 →
      saturatingMul bundle.tip 1000000 < calculateScore unit

/-- These are the batches in which the priorities order the scores. -/
theorem tipsLast_iff {units : List SchedulableUnit} : TipsLast units ↔
    ∀ a ∈ units, ∀ b ∈ units, priority b ≤ priority a → calculateScore b ≤ calculateScore a := by
  constructor
  · intro hTips a ha b hb hLe
    rcases score_eq_priority_or b with hb' | ⟨bundle, rfl, hZero⟩
    · rcases score_eq_priority_or a with ha' | ⟨bundle, rfl, hZero⟩
      · rw [ha', hb']
        exact hLe
      · by_cases hScore : calculateScore b = 0
        · rw [hScore]
          exact UInt64.zero_le
        · have hLt := hTips bundle ha hZero b hb hScore
          rw [← (calculateScore_bundle_zero hZero).2, hb'] at hLt
          exact absurd hLt (UInt64.not_lt.mpr hLe)
    · rw [(calculateScore_bundle_zero hZero).1]
      exact UInt64.zero_le
  · intro hOrder bundle hBundle hZero unit hUnit hScore
    obtain ⟨hNone, hTip⟩ := calculateScore_bundle_zero hZero
    refine UInt64.not_le.mp fun hLe => hScore ?_
    rw [← hTip, calculateScore_of_ne_zero hScore] at hLe
    have hScores := hOrder _ hBundle unit hUnit hLe
    rw [hNone] at hScores
    exact UInt64.le_antisymm hScores UInt64.zero_le

/-! ## Ranked plans -/

/-- Of two units for one worker the one that is sent first has no lower score. -/
def Ranked (plan : Plan) : Prop :=
  plan.Pairwise fun entry later => entry.1 = later.1 →
    calculateScore later.2 ≤ calculateScore entry.2

theorem reach_returned (start : TpuRun workerCount) :
    ∃ s, Reachable TpuRun.step start s ∧ ∃ result, s.pc = .returned result := by
  have hProgress : ∀ s : TpuRun workerCount, True → (∃ result, s.pc = .returned result) ∨
      ∃ act s', s.step act = some s' ∧ True ∧ s'.pc.stepsLeft < s.pc.stepsLeft := by
    intro s _
    cases hStep : s.step .caller with
    | none => exact Or.inl (returned_of_blocked hStep)
    | some s' =>
      exact Or.inr ⟨.caller, s', hStep, trivial, callerRule_stepsLeft (callerRule_of_step hStep)⟩
  obtain ⟨s, hReach, -, hReturned⟩ := Reachable.exists_of_progress hProgress trivial
  exact ⟨s, hReach, hReturned⟩

/-- In some run everything is sent, so all runs are ranked if that one is. -/
theorem ranked_run_iff {start : TpuRun workerCount} {plan : Plan} (hOpen : Open start.pool)
    (hRest : Rest plan start) :
    (∀ acts s, run TpuRun.step start acts = some s → Ranked (sentAlong start acts)) ↔
      Ranked plan := by
  constructor
  · intro hAll
    obtain ⟨s, ⟨acts, hRun⟩, result, hReturned⟩ := reach_returned start
    obtain ⟨left, hPlan, hLeft⟩ := run_rest hOpen hRest hRun
    rw [Rest, hReturned] at hLeft
    rw [hPlan, hLeft.2, List.append_nil]
    exact hAll acts s hRun
  · intro hRanked acts s hRun
    obtain ⟨left, hPlan, -⟩ := run_rest hOpen hRest hRun
    rw [hPlan] at hRanked
    exact hRanked.sublist (List.sublist_append_left _ _)

theorem planOf_map_snd {order : List SchedulableUnit} {assignments : List WorkerAssignment}
    (hAssigned : List.Forall₂ (fun unit a => ∃ w < workerCount,
      a = SchedulableUnit.assignment unit w) order assignments) :
    (planOf order assignments).map Prod.snd = order := by
  induction hAssigned with
  | nil => rfl
  | cons _ _ ih => exact congrArg (List.cons _) ih

/-- With one worker all units meet on its queue. -/
theorem planOf_of_one {order : List SchedulableUnit} {assignments : List WorkerAssignment}
    (hAssigned : List.Forall₂ (fun unit a => ∃ w < 1, a = SchedulableUnit.assignment unit w)
      order assignments) :
    planOf order assignments = order.map fun unit => (0, unit) := by
  induction hAssigned with
  | nil => rfl
  | @cons unit a order assignments hHead _ ih =>
    obtain ⟨w, hw, rfl⟩ := hHead
    have hZero : w = 0 := by omega
    subst hZero
    exact congrArg (List.cons _) ih

/-! ## The plan of a large batch -/

/-- The units that have a worker, with it. -/
def planFit (units : List SchedulableUnit) (workers : List (Option (Fin workerCount))) : Plan :=
  (units.zip workers).filterMap fun entry => entry.2.map fun w => (w.val, entry.1)

theorem planFit_spec (units : List SchedulableUnit) (workers : List (Option (Fin workerCount))) :
    let order := (planFit units workers).map Prod.snd
    order.Sublist units ∧
      List.Forall₂ (fun unit a => ∃ w < workerCount, a = SchedulableUnit.assignment unit w)
        order (GreedyScheduler.placed units workers) ∧
      planOf order (GreedyScheduler.placed units workers) = planFit units workers := by
  induction units generalizing workers with
  | nil => exact ⟨List.Sublist.slnil, List.Forall₂.nil, rfl⟩
  | cons unit units ih =>
    cases workers with
    | nil => exact ⟨List.nil_sublist _, List.Forall₂.nil, rfl⟩
    | cons w workers =>
      obtain ⟨hSublist, hAssigned, hPlan⟩ := ih workers
      cases w with
      | none => exact ⟨hSublist.cons _, hAssigned, hPlan⟩
      | some w =>
        exact ⟨hSublist.cons_cons _, List.Forall₂.cons ⟨w, w.isLt, rfl⟩ hAssigned,
          congrArg (List.cons _) hPlan⟩

/-- The workers that first fit gives the units, from empty lock sets. -/
def firstFit (workerCount : ℕ) (units : List SchedulableUnit) : List (Option (Fin workerCount)) :=
  fit (fun _ => ∅) (units.map SchedulableUnit.allAccounts)

/-- Units that first fit puts on one worker come by descending score. -/
def FirstFitRanked (workerCount : ℕ) (units : List SchedulableUnit) : Prop :=
  (units.zip (firstFit workerCount units)).Pairwise fun entry later =>
    ∀ w, entry.2 = some w → later.2 = some w → calculateScore later.1 ≤ calculateScore entry.1

theorem ranked_planFit_iff (units : List SchedulableUnit) :
    Ranked (planFit units (firstFit workerCount units)) ↔ FirstFitRanked workerCount units := by
  unfold Ranked planFit FirstFitRanked
  rw [List.pairwise_filterMap]
  constructor
  · intro h
    refine h.imp ?_
    rintro ⟨unit, v⟩ ⟨later, v'⟩ hPair w hv hv'
    simp only at hv hv'
    subst hv hv'
    exact hPair _ rfl _ rfl rfl
  · intro h
    refine h.imp ?_
    rintro ⟨unit, v⟩ ⟨later, v'⟩ hPair entry hEntry entry' hEntry' hSame
    obtain ⟨w, rfl, rfl⟩ := Option.map_eq_some_iff.mp hEntry
    obtain ⟨w', rfl, rfl⟩ := Option.map_eq_some_iff.mp hEntry'
    have hw : w = w' := Fin.ext hSame
    exact hPair w rfl (hw ▸ rfl)

theorem schedule_fresh_of_gt (heap : PrioGraphScheduler.BinaryHeap) {bundles : List Bundle}
    {looseTxs : List Transaction} (hGt : 2000 < (batchUnits bundles looseTxs).length) :
    ((AdaptiveScheduler.new workerCount).schedule heap bundles looseTxs).2 =
      .ok (GreedyScheduler.placed (batchUnits bundles looseTxs)
        (firstFit workerCount (batchUnits bundles looseTxs))) := by
  rw [AdaptiveScheduler.schedule_of_gt rfl hGt, GreedyScheduler.schedule_eq]
  rfl

/-! ## Any order of the maps -/

/-- Bundles are placed before transactions. -/
def phase : SchedulableUnit → ℕ
  | .bundle _ => 0
  | .transaction _ => 1

/-- On each worker no unit has a higher score than one that may come before it. -/
def SpreadRanked (units : List SchedulableUnit) (place : SchedulableUnit → Option (Fin workerCount)) :
    Prop :=
  ∀ a ∈ units, ∀ b ∈ units, ∀ w, place a = some w → place b = some w → phase a ≤ phase b →
    calculateScore b ≤ calculateScore a

theorem exists_place {units : List SchedulableUnit} (hNodup : units.Nodup) :
    ∃ place, firstFit workerCount units = units.map place := by
  refine ⟨fun unit => ((firstFit workerCount units)[units.idxOf unit]?).getD none, ?_⟩
  have hLength : (firstFit workerCount units).length = units.length := by
    rw [firstFit, length_fit, List.length_map]
  refine List.ext_getElem (hLength.trans (List.length_map _).symm) ?_
  intro i hi hi'
  have hLt : i < units.length := hLength ▸ hi
  rw [List.getElem_map, hNodup.idxOf_getElem i hLt, List.getElem?_eq_getElem hi]
  rfl

theorem firstFitRanked_of_place {units : List SchedulableUnit}
    {place : SchedulableUnit → Option (Fin workerCount)}
    (hPlace : firstFit workerCount units = units.map place) :
    FirstFitRanked workerCount units ↔ units.Pairwise fun a b =>
      ∀ w, place a = some w → place b = some w → calculateScore b ≤ calculateScore a := by
  rw [FirstFitRanked, hPlace, ← List.map_prod_left_eq_zip, List.pairwise_map]

/-- Lower bins first, and `a` before all else in its bin. -/
def spreadRank (place : SchedulableUnit → Option (Fin workerCount)) (a unit : SchedulableUnit) : ℕ :=
  2 * ((place unit).elim workerCount fun w => w.val) + if unit = a then 0 else 1

theorem spreadRank_lt {place : SchedulableUnit → Option (Fin workerCount)}
    {a x y : SchedulableUnit} {c : Fin workerCount} (hy : place y = some c)
    (hx : Lower c (place x)) : spreadRank place a y < spreadRank place a x := by
  have hBin : c.val < (place x).elim workerCount fun w => w.val := by
    cases hPlace : place x with
    | none => exact c.isLt
    | some b => exact hx b hPlace
  rw [spreadRank, spreadRank, hy, Option.elim_some]
  split <;> split <;> omega

/-- Units in the order of a rank, bundles first. -/
theorem exists_sorted (rank : SchedulableUnit → ℕ) (bundles : List Bundle)
    (looseTxs : List Transaction) :
    ∃ bundles' looseTxs', bundles'.Perm bundles ∧ looseTxs'.Perm looseTxs ∧
      (batchUnits bundles' looseTxs').Pairwise fun x y =>
        phase x < phase y ∨ phase x = phase y ∧ rank x ≤ rank y := by
  refine ⟨bundles.insertionSort fun x y => rank (.bundle x) ≤ rank (.bundle y),
    looseTxs.insertionSort fun x y => rank (.transaction x) ≤ rank (.transaction y),
    List.perm_insertionSort _ _, List.perm_insertionSort _ _, ?_⟩
  refine List.pairwise_append.mpr ⟨?_, ?_, ?_⟩
  · exact List.pairwise_map.mpr ((List.pairwise_insertionSort _ bundles).imp
      fun h => Or.inr ⟨rfl, h⟩)
  · exact List.pairwise_map.mpr ((List.pairwise_insertionSort _ looseTxs).imp
      fun h => Or.inr ⟨rfl, h⟩)
  · intro x hx y hy
    obtain ⟨bundle, -, rfl⟩ := List.mem_map.mp hx
    obtain ⟨tx, -, rfl⟩ := List.mem_map.mp hy
    exact Or.inl Nat.zero_lt_one

theorem batchUnits_phases (bundles : List Bundle) (looseTxs : List Transaction) :
    (batchUnits bundles looseTxs).Pairwise fun x y => phase x ≤ phase y := by
  refine List.pairwise_append.mpr ⟨?_, ?_, ?_⟩
  · exact List.pairwise_map.mpr (List.pairwise_of_forall fun _ _ => le_rfl)
  · exact List.pairwise_map.mpr (List.pairwise_of_forall fun _ _ => le_rfl)
  · intro x hx y hy
    obtain ⟨bundle, -, rfl⟩ := List.mem_map.mp hx
    exact Nat.zero_le _

theorem batchUnits_perm {bundles bundles' : List Bundle} {looseTxs looseTxs' : List Transaction}
    (hBundles : bundles'.Perm bundles) (hTxs : looseTxs'.Perm looseTxs) :
    (batchUnits bundles' looseTxs').Perm (batchUnits bundles looseTxs) :=
  (hBundles.map _).append (hTxs.map _)

/-- First fit is ranked in every order if each spread of the units is. -/
theorem firstFitRanked_iff_spread {bundles : List Bundle} {looseTxs : List Transaction}
    (hNodup : (batchUnits bundles looseTxs).Nodup) :
    (∀ bundles' looseTxs', bundles'.Perm bundles → looseTxs'.Perm looseTxs →
      FirstFitRanked workerCount (batchUnits bundles' looseTxs')) ↔
    ∀ place : SchedulableUnit → Option (Fin workerCount),
      IsSpread SchedulableUnit.allAccounts phase (batchUnits bundles looseTxs) place →
        SpreadRanked (batchUnits bundles looseTxs) place := by
  constructor
  · intro hAll place hSpread a ha b hb w haw hbw hPhase
    by_cases hab : a = b
    · rw [hab]
      exact UInt64.le_refl _
    -- The lower workers are filled first, and on that of `a` it is the first.
    obtain ⟨bundles', looseTxs', hBundles, hTxs, hSorted⟩ :=
      exists_sorted (spreadRank place a) bundles looseTxs
    have hPerm := batchUnits_perm hBundles hTxs
    have hFit : firstFit workerCount (batchUnits bundles' looseTxs') =
        (batchUnits bundles' looseTxs').map place := by
      refine (hSpread.congr fun x => hPerm.mem_iff).fit_eq_map (hPerm.nodup_iff.mpr hNodup) ?_
      refine hSorted.imp ?_
      intro x y hxy c hyc hxc
      rcases hxy with hLt | ⟨-, hLe⟩
      · exact hLt
      · exact absurd (spreadRank_lt hyc hxc) (Nat.not_lt.mpr hLe)
    have hRanked := (firstFitRanked_of_place hFit).mp (hAll bundles' looseTxs' hBundles hTxs)
    rcases StableSort.rel_or_rel_of_pairwise (hSorted.and hRanked) (hPerm.mem_iff.mpr ha)
      (hPerm.mem_iff.mpr hb) hab with ⟨-, hScore⟩ | ⟨hBack, -⟩
    · exact hScore w haw hbw
    · rcases hBack with hLt | ⟨-, hLe⟩
      · exact absurd hLt (Nat.not_lt.mpr hPhase)
      · rw [spreadRank, spreadRank, haw, hbw, if_pos rfl, if_neg (Ne.symm hab)] at hLe
        omega
  · intro hAll bundles' looseTxs' hBundles hTxs
    have hPerm := batchUnits_perm hBundles hTxs
    obtain ⟨place, hPlace⟩ : ∃ place, firstFit workerCount (batchUnits bundles' looseTxs') =
        (batchUnits bundles' looseTxs').map place :=
      exists_place (hPerm.nodup_iff.mpr hNodup)
    have hPhases := batchUnits_phases bundles' looseTxs'
    have hSpread := (isSpread_of_fit hPhases hPlace).congr fun x => hPerm.symm.mem_iff
    refine (firstFitRanked_of_place hPlace).mpr (hPhases.imp_of_mem ?_)
    intro a b ha hb hPhase w haw hbw
    exact hAll place hSpread a (hPerm.mem_iff.mp ha) b (hPerm.mem_iff.mp hb) w haw hbw hPhase

/-! ## A batch that brings a tip to the front -/

/-- The stable sort by priority keeps the first unit before all of lower or equal
priority. -/
theorem head_before {first unit : SchedulableUnit} {rest : List SchedulableUnit}
    (hNodup : (first :: rest).Nodup) (hUnit : unit ∈ rest)
    (hLe : priority unit ≤ priority first) {R : SchedulableUnit → SchedulableUnit → Prop}
    (hPairwise : (StableSort.sortByKeyRev (fun unit => (priority unit).toNat)
      (first :: rest)).Pairwise R) : R first unit := by
  obtain ⟨hFirst, -⟩ := List.nodup_cons.mp hNodup
  have hne : first ≠ unit := fun h => hFirst (h ▸ hUnit)
  have hBefore : (first :: rest).Pairwise fun _ later => later ≠ first := by
    refine List.pairwise_cons.mpr ⟨fun later hLater h => hFirst (h ▸ hLater), ?_⟩
    exact (List.nodup_cons.mp hNodup).2.imp_of_mem fun _ hLater _ h => hFirst (h ▸ hLater)
  have hRanked : (StableSort.sortByKeyRev (fun unit => (priority unit).toNat)
      (first :: rest)).Pairwise (StableSort.Ranked (fun unit => (priority unit).toNat)
        fun _ later => later ≠ first) :=
    StableSort.pairwise_sortByKeyRev hBefore
  have hMem : ∀ u ∈ first :: rest, u ∈ StableSort.sortByKeyRev (fun unit => (priority unit).toNat)
      (first :: rest) := fun u hu => (StableSort.sortByKeyRev_perm _ _).mem_iff.mpr hu
  rcases StableSort.rel_or_rel_of_pairwise (hRanked.and hPairwise) (hMem _ List.mem_cons_self)
    (hMem _ (List.mem_cons_of_mem _ hUnit)) hne with ⟨-, hR⟩ | ⟨hBack, -⟩
  · exact hR
  · rcases hBack with hLt | ⟨-, hNe⟩
    · exact absurd hLt (Nat.not_lt.mpr hLe)
    · exact absurd rfl hNe

/-! ## Main result -/

theorem processBatch_of_schedule {heap : PrioGraphScheduler.BinaryHeap}
    {scheduler : AdaptiveScheduler workerCount} {pool : AsyncWorkerPool workerCount}
    {bundles bundleValues : List Bundle} {looseTxs txValues : List Transaction}
    {assignments : List WorkerAssignment}
    (h : (scheduler.schedule heap bundleValues txValues).2 = .ok assignments) :
    processBatch heap scheduler pool bundles looseTxs bundleValues txValues =
      .ok ⟨.dispatching assignments ⟨bundleMap bundles, txMap looseTxs⟩, pool⟩ := by
  rw [processBatch, h]
  rfl

/-- In every run of a fresh pipeline with any number of workers, whatever the heap and
the maps do, the units of the batch reach every queue by descending score. -/
def RankingSurvives (bundles : List Bundle) (looseTxs : List Transaction) : Prop :=
  ∀ (heap : PrioGraphScheduler.BinaryHeap) (workerCount : ℕ), 1 ≤ workerCount →
    ∀ (bundleValues : List Bundle) (txValues : List Transaction),
      IsValues (bundleMap bundles) bundleValues → IsValues (txMap looseTxs) txValues →
      ∀ start, processBatch heap (AdaptiveScheduler.new workerCount) (spawn workerCount) bundles
          looseTxs bundleValues txValues = .ok start →
        ∀ acts s, run TpuRun.step start acts = some s → Ranked (sentAlong start acts)

section Batch

variable {bundles bundleValues : List Bundle} {looseTxs txValues : List Transaction}

theorem batchUnits_nodup (hBundles : IsValues (bundleMap bundles) bundleValues)
    (hTxs : IsValues (txMap looseTxs) txValues) : (batchUnits bundleValues txValues).Nodup :=
  (mapKey_nodup hBundles.key_nodup hTxs.key_nodup).of_map _

theorem tipsLast_of_survives (h : RankingSurvives bundles looseTxs)
    (hBundles : IsValues (bundleMap bundles) bundleValues)
    (hTxs : IsValues (txMap looseTxs) txValues)
    (hLe : (batchUnits bundleValues txValues).length ≤ 2000) :
    TipsLast (batchUnits bundleValues txValues) := by
  intro bundle hBundle hZero unit hUnit hScore
  obtain ⟨hNone, hTip⟩ := calculateScore_bundle_zero hZero
  refine UInt64.not_le.mp fun hTipLe => hScore ?_
  rw [← hTip, calculateScore_of_ne_zero hScore] at hTipLe
  -- One worker, and a map that gives out the bundle first.
  have hMem : bundle ∈ bundleValues := by
    rcases List.mem_append.mp hBundle with hMem | hMem
    · obtain ⟨other, hOther, hEq⟩ := List.mem_map.mp hMem
      cases hEq
      exact hOther
    · obtain ⟨tx, -, hEq⟩ := List.mem_map.mp hMem
      cases hEq
  let values := bundle :: bundleValues.erase bundle
  have hPerm : values.Perm bundleValues := (List.perm_cons_erase hMem).symm
  have hValues := hBundles.of_perm hPerm
  have hUnits := batchUnits_perm hPerm (List.Perm.refl txValues)
  obtain ⟨heap, hHeap⟩ := PrioGraphScheduler.exists_heap_stableSort values txValues
  let order := StableSort.sortByKeyRev (fun unit => (priority unit).toNat)
    (batchUnits values txValues)
  obtain ⟨assignments, hAssign, hAssigned⟩ := PrioGraphScheduler.assignFrom_spec Nat.zero_lt_one
    (PrioGraphScheduler.WorkerTables.new 1) (order.map PrioGraphScheduler.unitNode)
  rw [List.forall₂_map_left_iff] at hAssigned
  simp only [PrioGraphScheduler.unitNode_assignment] at hAssigned
  have hSchedule : ((AdaptiveScheduler.new 1).schedule heap values txValues).2 = .ok assignments := by
    rw [AdaptiveScheduler.schedule_of_le rfl (hUnits.length_eq.trans_le hLe)]
    exact (hHeap 1).trans hAssign
  have hRest := rest_of_assigned hValues hTxs
    (StableSort.sortByKeyRev_perm _ (batchUnits values txValues)).subperm hAssigned (spawn 1)
  have hRanked := (ranked_run_iff (spawn_open 1) hRest).mp
    (h heap 1 le_rfl values txValues hValues hTxs _ (processBatch_of_schedule hSchedule))
  rw [planOf_of_one hAssigned, Ranked, List.pairwise_map] at hRanked
  have hNodup := batchUnits_nodup hValues hTxs
  have hLater : unit ∈ (bundleValues.erase bundle).map SchedulableUnit.bundle ++
      txValues.map SchedulableUnit.transaction := by
    refine (List.mem_cons.mp (hUnits.mem_iff.mpr hUnit)).resolve_left fun hEq => hScore ?_
    rw [hEq]
    exact hNone
  have hFirst := head_before hNodup hLater hTipLe (hRanked.imp fun h => h rfl)
  rw [hNone] at hFirst
  exact UInt64.le_antisymm hFirst UInt64.zero_le

/-- In a small batch the priorities decide. -/
theorem ranked_of_tipsLast {heap : PrioGraphScheduler.BinaryHeap} (hCount : 1 ≤ workerCount)
    (hBundles : IsValues (bundleMap bundles) bundleValues)
    (hTxs : IsValues (txMap looseTxs) txValues)
    (hLe : (batchUnits bundleValues txValues).length ≤ 2000)
    (hTips : TipsLast (batchUnits bundleValues txValues)) {start : TpuRun workerCount}
    (hStart : processBatch heap (AdaptiveScheduler.new workerCount) (spawn workerCount) bundles
      looseTxs bundleValues txValues = .ok start) {acts : List (TpuAct workerCount)}
    {s : TpuRun workerCount} (hRun : run TpuRun.step start acts = some s) :
    Ranked (sentAlong start acts) := by
  obtain ⟨order, assignments, hSchedule, hOrder, hAssigned, hDesc⟩ :=
    PrioGraphScheduler.schedule_order heap hCount bundleValues txValues
  have hAdaptive : ((AdaptiveScheduler.new workerCount).schedule heap bundleValues txValues).2 =
      .ok assignments := by
    rw [AdaptiveScheduler.schedule_of_le rfl hLe]
    exact hSchedule
  cases (processBatch_of_schedule hAdaptive).symm.trans hStart
  have hRest := rest_of_assigned hBundles hTxs hOrder.subperm hAssigned (spawn workerCount)
  refine (ranked_run_iff (spawn_open workerCount) hRest).mpr ?_ acts s hRun
  have hScores : order.Pairwise fun a b => calculateScore b ≤ calculateScore a :=
    hDesc.imp_of_mem fun ha hb =>
      tipsLast_iff.mp hTips _ (hOrder.subset ha) _ (hOrder.subset hb)
  rw [← planOf_map_snd hAssigned, List.pairwise_map] at hScores
  unfold Ranked
  refine hScores.imp ?_
  intro entry later hScore _
  exact hScore

/-- In a large batch first fit decides. -/
theorem ranked_iff_firstFit {heap : PrioGraphScheduler.BinaryHeap}
    (hBundles : IsValues (bundleMap bundles) bundleValues)
    (hTxs : IsValues (txMap looseTxs) txValues)
    (hGt : 2000 < (batchUnits bundleValues txValues).length) :
    (∀ start, processBatch heap (AdaptiveScheduler.new workerCount) (spawn workerCount) bundles
        looseTxs bundleValues txValues = .ok start →
      ∀ acts s, run TpuRun.step start acts = some s → Ranked (sentAlong start acts)) ↔
      FirstFitRanked workerCount (batchUnits bundleValues txValues) := by
  have hStart : processBatch heap (AdaptiveScheduler.new workerCount) (spawn workerCount) bundles
      looseTxs bundleValues txValues = .ok ⟨.dispatching
        (GreedyScheduler.placed (batchUnits bundleValues txValues)
          (firstFit workerCount (batchUnits bundleValues txValues)))
        ⟨bundleMap bundles, txMap looseTxs⟩, spawn workerCount⟩ :=
    processBatch_of_schedule (schedule_fresh_of_gt heap hGt)
  obtain ⟨hSublist, hAssigned, hPlan⟩ := planFit_spec (batchUnits bundleValues txValues)
    (firstFit workerCount (batchUnits bundleValues txValues))
  have hRest := rest_of_assigned hBundles hTxs hSublist.subperm hAssigned (spawn workerCount)
  rw [hPlan] at hRest
  rw [← ranked_planFit_iff, ← ranked_run_iff (spawn_open workerCount) hRest, hStart]
  simp only [Except.ok.injEq, forall_eq']

/-- The ranking survives if in a batch of at most 2000 units the tips of the bundles
without compute units are below all scores, and in a larger one the units that can meet
on a worker have scores in the order in which they come. Otherwise it does not survive
some run. -/
theorem rankingSurvives_iff (bundles : List Bundle) (looseTxs : List Transaction) :
    RankingSurvives bundles looseTxs ↔
      ∀ bundleValues txValues, IsValues (bundleMap bundles) bundleValues →
        IsValues (txMap looseTxs) txValues →
          ((batchUnits bundleValues txValues).length ≤ 2000 →
            TipsLast (batchUnits bundleValues txValues)) ∧
          (2000 < (batchUnits bundleValues txValues).length → ∀ workerCount, 1 ≤ workerCount →
            ∀ place : SchedulableUnit → Option (Fin workerCount),
              IsSpread SchedulableUnit.allAccounts phase (batchUnits bundleValues txValues) place →
                SpreadRanked (batchUnits bundleValues txValues) place) := by
  constructor
  · intro h bundleValues txValues hBundles hTxs
    refine ⟨tipsLast_of_survives h hBundles hTxs, fun hGt workerCount hCount => ?_⟩
    refine (firstFitRanked_iff_spread (batchUnits_nodup hBundles hTxs)).mp ?_
    intro bundleValues' txValues' hBundlePerm hTxPerm
    have hGt' : 2000 < (batchUnits bundleValues' txValues').length := by
      rwa [(batchUnits_perm hBundlePerm hTxPerm).length_eq]
    have hBundles' := hBundles.of_perm hBundlePerm
    have hTxs' := hTxs.of_perm hTxPerm
    let heap : PrioGraphScheduler.BinaryHeap := fun _ => PriorityQueue.MaxHeap.ofList _
    exact (ranked_iff_firstFit hBundles' hTxs' hGt').mp
      (h heap workerCount hCount bundleValues' txValues' hBundles' hTxs')
  · intro h heap workerCount hCount bundleValues txValues hBundles hTxs start hStart acts s hRun
    obtain ⟨hSmall, hLarge⟩ := h bundleValues txValues hBundles hTxs
    by_cases hLe : (batchUnits bundleValues txValues).length ≤ 2000
    · exact ranked_of_tipsLast hCount hBundles hTxs hLe (hSmall hLe) hStart hRun
    · have hGt := Nat.lt_of_not_le hLe
      have hFit := (firstFitRanked_iff_spread (batchUnits_nodup hBundles hTxs)).mpr
        (hLarge hGt workerCount hCount)
      exact (ranked_iff_firstFit hBundles hTxs hGt).mpr
        (hFit bundleValues txValues (List.Perm.refl _) (List.Perm.refl _)) start hStart acts s hRun

end Batch

/-- A transaction of score 1. -/
def scoreOneTx : Transaction := Transaction.new "tx" [] 1000000 1

/-- A tip without compute units. -/
def tipOnly : Bundle := Bundle.new 1 [] 1 "s"

/-- The tip goes ahead of the transaction. -/
theorem not_rankingSurvives :
    ¬ ∀ (bundles : List Bundle) (looseTxs : List Transaction), RankingSurvives bundles looseTxs := by
  intro hAll
  have hBundles : IsValues (bundleMap [tipOnly]) [tipOnly] := rfl
  have hTxs : IsValues (txMap [scoreOneTx]) [scoreOneTx] := rfl
  have hTips := tipsLast_of_survives (hAll [tipOnly] [scoreOneTx]) hBundles hTxs (by decide)
  have hLt := hTips tipOnly List.mem_cons_self rfl (.transaction scoreOneTx)
    (List.mem_cons_of_mem _ (List.mem_singleton_self _)) (by decide)
  exact absurd hLt (by decide)

end Blunder.TpuPipeline
