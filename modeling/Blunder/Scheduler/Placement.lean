import Blunder.Scheduler.PriorityOrder
import Blunder.Foundation.Holdings

/-!
# Where the priority-graph scheduler puts the units

`assign_workers` deals the nodes to the workers by the rule of list scheduling: the
accounts are the resources and the priorities the weights. It keeps the loads in `u64`s
that wrap, so it does so as long as no addition overflows, `LoadsFit`; until then
`Dealt` ties its tables to the placement.

* `schedule_leastLoaded`: which worker each unit gets.
* `schedule_balanced`: how far the loads are apart.
* `noOverflow_iff`: the batches on which no addition overflows, for one worker count.
* `noOverflow_iff_sums`: those on which none overflows for any worker count.
-/

namespace Blunder

open Foundation ListScheduling

namespace PrioGraphScheduler

variable {workerCount : ℕ}

/-- What a node adds to the load of its worker. -/
def Node.weight (node : Node) : ℕ := node.priority.toNat

/-- The node and worker of an assignment. -/
def placed (e : Node × Fin workerCount) : WorkerAssignment := e.1.assignment e.2

/-! ## Additions that do not overflow -/

/-- No partial sum of a `u64` sum overflows. -/
def AddsFit (acc : UInt64) : List UInt64 → Prop
  | [] => True
  | x :: rest => acc.toNat + x.toNat < UInt64.size ∧ AddsFit (acc + x) rest

/-- No addition to a load overflows. -/
def LoadsFit (tables : WorkerTables workerCount) : List Node → Prop
  | [] => True
  | node :: rest =>
    match chooseWorker tables node with
    | none => True
    | some w =>
      (tables.loads w).toNat + node.priority.toNat < UInt64.size ∧
        LoadsFit (tables.assign node w) rest

theorem toNat_add_of_lt {a b : UInt64} (h : a.toNat + b.toNat < UInt64.size) :
    (a + b).toNat = a.toNat + b.toNat := by
  rw [UInt64.toNat_add]
  exact Nat.mod_eq_of_lt h

theorem addsFit_iff {acc : UInt64} {terms : List UInt64} :
    AddsFit acc terms ↔ acc.toNat + (terms.map UInt64.toNat).sum < UInt64.size := by
  induction terms generalizing acc with
  | nil => simpa [AddsFit] using acc.toNat_lt_size
  | cons x rest ih =>
    rw [AddsFit, List.map_cons, List.sum_cons]
    constructor
    · rintro ⟨hHead, hRest⟩
      rw [ih, toNat_add_of_lt hHead] at hRest
      omega
    · intro hSum
      have hHead : acc.toNat + x.toNat < UInt64.size := by omega
      rw [ih, toNat_add_of_lt hHead]
      exact ⟨hHead, by omega⟩

/-! ## The tables during the loop -/

/-- The tables after the nodes of a placement. -/
structure Dealt (tables : WorkerTables workerCount) (p : Placement Node workerCount) : Prop where
  locked : ∀ w acc, acc ∈ tables.locked w ↔ ∃ e ∈ p, e.2 = w ∧ acc ∈ e.1.accounts
  loads : ∀ w, (tables.loads w).toNat = load Node.weight p w

theorem Dealt.new : Dealt (WorkerTables.new workerCount) [] where
  locked w acc := by simp [WorkerTables.new]
  loads w := rfl

section Dealt

variable {tables : WorkerTables workerCount} {p : Placement Node workerCount} {node : Node}

theorem Dealt.holds (h : Dealt tables p) : Holds Node.accounts p tables.locked := h.locked

/-- `min_by_key` sees the exact loads. -/
theorem Dealt.chooseWorker_eq (h : Dealt tables p) :
    chooseWorker tables node = pick Node.accounts Node.weight p node := by
  have hLoads : (fun w => (tables.loads w).toNat) = load Node.weight p := funext h.loads
  have hFree : (fun w => decide (Disjoint node.accounts (tables.locked w))) =
      fun w => decide (Free Node.accounts p node w) :=
    funext fun w => decide_eq_decide.mpr (h.holds.disjoint_iff w)
  simp only [chooseWorker, leastLoaded, pick, candidates, hLoads, hFree]
  split <;> rfl

theorem Dealt.assign (h : Dealt tables p) {w : Fin workerCount}
    (hFit : (tables.loads w).toNat + node.priority.toNat < UInt64.size) :
    Dealt (tables.assign node w) (p ++ [(node, w)]) where
  locked := h.holds.put node w
  loads v := by
    rw [load_concat]
    by_cases hv : v = w
    · subst hv
      simp only [WorkerTables.assign, Function.update_self, toNat_add_of_lt hFit, h.loads,
        Node.weight]
    · simp only [WorkerTables.assign, Function.update_of_ne hv, h.loads]

/-- While the loads fit, the code deals the nodes as list scheduling does. -/
theorem Dealt.assignFrom_eq (h : Dealt tables p) (hCount : 0 < workerCount) {nodes : List Node}
    (hFit : LoadsFit tables nodes) :
    ∃ rest, deal Node.accounts Node.weight p nodes = p ++ rest ∧ rest.map Prod.fst = nodes ∧
      assignFrom tables nodes = .ok (rest.map placed) := by
  induction nodes generalizing tables p with
  | nil => exact ⟨[], (List.append_nil p).symm, rfl, rfl⟩
  | cons node nodes ih =>
    obtain ⟨w, hw⟩ := chooseWorker_isSome hCount tables node
    rw [LoadsFit, hw] at hFit
    obtain ⟨rest, hDeal, hNodes, hAssign⟩ := ih (h.assign hFit.1) hFit.2
    refine ⟨(node, w) :: rest, ?_, ?_, ?_⟩
    · rw [deal, ← h.chooseWorker_eq, hw, List.append_cons]
      exact hDeal
    · rw [List.map_cons, hNodes]
    · rw [assignFrom, hw]
      simp only [hAssign, Except.map]
      rfl

/-- The additions overflow as soon as an exact load reaches `2 ^ 64`. -/
theorem Dealt.loadsFit_iff (h : Dealt tables p) (nodes : List Node) :
    LoadsFit tables nodes ↔
      ∀ w, load Node.weight (deal Node.accounts Node.weight p nodes) w < UInt64.size := by
  induction nodes generalizing tables p with
  | nil =>
    refine iff_of_true trivial fun w => ?_
    rw [deal, ← h.loads w]
    exact (tables.loads w).toNat_lt_size
  | cons node nodes ih =>
    rw [LoadsFit, deal, ← h.chooseWorker_eq]
    cases hw : chooseWorker tables node with
    | none =>
      refine iff_of_true trivial fun w => ?_
      obtain ⟨v, hv⟩ := chooseWorker_isSome w.pos tables node
      cases hw.symm.trans hv
    | some w =>
      have hLoad : load Node.weight (p ++ [(node, w)]) w =
          (tables.loads w).toNat + node.priority.toNat := by
        rw [load_concat, Function.update_self, h.loads, Node.weight]
      constructor
      · rintro ⟨hHead, hRest⟩
        exact (ih (h.assign hHead)).mp hRest
      · intro hAll
        have hHead : (tables.loads w).toNat + node.priority.toNat < UInt64.size := by
          rw [← hLoad]
          exact lt_of_le_of_lt (load_mono _ (prefix_deal _ _) w) (hAll w)
        exact ⟨hHead, (ih (h.assign hHead)).mpr hAll⟩

end Dealt

/-! ## Main results -/

section Schedule

variable {heap : BinaryHeap} {bundles : List Bundle} {looseTxs : List Transaction}
  {sorted : List (Fin (buildNodes bundles looseTxs).length)}

/-- The assignments are those of the placement that list scheduling deals. -/
theorem exists_placement (hCount : 1 ≤ workerCount)
    (hSort : topologicalSort heap (buildNodes bundles looseTxs)
      (buildAdjList (buildNodes bundles looseTxs)) = .ok sorted)
    (hFit : LoadsFit (WorkerTables.new workerCount)
      (sorted.map (buildNodes bundles looseTxs).get)) :
    ∃ entries : Placement Node workerCount,
      entries.map Prod.fst = sorted.map (buildNodes bundles looseTxs).get ∧
      schedule heap workerCount bundles looseTxs = .ok (entries.map placed) ∧
      Follows Node.accounts Node.weight entries := by
  obtain ⟨entries, hDeal, hNodes, hAssign⟩ := Dealt.new.assignFrom_eq hCount hFit
  refine ⟨entries, hNodes, (schedule_eq_assignWorkers hSort workerCount).trans hAssign, ?_⟩
  rw [← List.nil_append entries, ← hDeal]
  exact deal_follows _ Follows.nil

/-- Each unit goes to a least loaded of the workers without a conflicting unit, and to a
worker with one only if every worker has one. So units with fewer than `workerCount`
earlier conflicts never meet one on their worker. -/
theorem schedule_leastLoaded (hCount : 1 ≤ workerCount)
    (hSort : topologicalSort heap (buildNodes bundles looseTxs)
      (buildAdjList (buildNodes bundles looseTxs)) = .ok sorted)
    (hFit : LoadsFit (WorkerTables.new workerCount)
      (sorted.map (buildNodes bundles looseTxs).get)) :
    let order := sorted.map (buildNodes bundles looseTxs).get
    ∃ entries : Placement Node workerCount,
      entries.map Prod.fst = order ∧
      schedule heap workerCount bundles looseTxs = .ok (entries.map placed) ∧
      (∀ pre node w post, entries = pre ++ (node, w) :: post →
        (∀ v, Free Node.accounts pre node v → load Node.weight pre w ≤ load Node.weight pre v) ∧
        (¬ Free Node.accounts pre node w → ∀ v, ¬ Free Node.accounts pre node v)) ∧
      ((∀ pre node post, order = pre ++ node :: post →
          pre.countP (fun other => ¬ Disjoint node.accounts other.accounts) < workerCount) →
        entries.Pairwise fun e f => e.2 = f.2 → Disjoint e.1.accounts f.1.accounts) := by
  intro order
  obtain ⟨entries, hNodes, hSchedule, hFollows⟩ := exists_placement hCount hSort hFit
  refine ⟨entries, hNodes, hSchedule, ?_, ?_⟩
  · intro pre node w post hSplit
    have hPick := hFollows pre node w post hSplit
    exact ⟨fun v hv => hPick.least v (Or.inl hv), hPick.not_free⟩
  · intro hFew
    refine hFollows.pairwise fun pre node w post hSplit => ?_
    have hBefore := hFew (pre.map Prod.fst) node (post.map Prod.fst) (by
      rw [← show _ = order from hNodes, hSplit, List.map_append, List.map_cons])
    rw [List.countP_map] at hBefore
    exact hBefore

/-- Two transactions with a common account and two workers for them. -/
theorem schedule_leastLoaded_sharedAccount :
    let heap : BinaryHeap := fun _ => PriorityQueue.MaxHeap.ofList _
    let tx := fun signature price =>
      Transaction.new signature [AccountMeta.new (Pubkey.filled 1) true] 1000000 price
    ∃ entries : Placement Node 2,
      schedule heap 2 [] [tx "a" 1, tx "b" 2] = .ok (entries.map placed) ∧
      entries.Pairwise fun e f => e.2 = f.2 → Disjoint e.1.accounts f.1.accounts := by
  intro heap tx
  have hSort : topologicalSort heap (buildNodes [] [tx "a" 1, tx "b" 2])
      (buildAdjList (buildNodes [] [tx "a" 1, tx "b" 2])) =
        .ok [⟨1, by decide⟩, ⟨0, by decide⟩] := by decide +kernel
  obtain ⟨entries, -, hSchedule, -, hApart⟩ := schedule_leastLoaded (show 1 ≤ 2 by omega) hSort
    ((Dealt.new.loadsFit_iff _).mpr (by decide +kernel))
  refine ⟨entries, hSchedule, hApart ?_⟩
  intro pre node post hSplit
  have hLength := congrArg List.length hSplit
  have hCount := List.countP_le_length (p := fun other : Node =>
    ¬ Disjoint node.accounts other.accounts) (l := pre)
  simp only [List.length_map, List.length_cons, List.length_nil, List.length_append] at hLength
  omega

/-- The largest priority among the nodes. -/
def maxPriority (nodes : List Node) : ℕ := (nodes.map Node.weight).foldr max 0

theorem weight_le_maxPriority {nodes : List Node} {node : Node} (h : node ∈ nodes) :
    node.weight ≤ maxPriority nodes := by
  unfold maxPriority
  induction nodes with
  | nil => exact absurd h List.not_mem_nil
  | cons first rest ih =>
    rw [List.map_cons, List.foldr_cons]
    rcases List.mem_cons.mp h with rfl | h
    · exact le_max_left _ _
    · exact (ih h).trans (le_max_right _ _)

/-- Units without common accounts are balanced at every time: no two loads differ by more
than the largest priority. -/
theorem schedule_balanced (hCount : 1 ≤ workerCount)
    (hSort : topologicalSort heap (buildNodes bundles looseTxs)
      (buildAdjList (buildNodes bundles looseTxs)) = .ok sorted)
    (hFit : LoadsFit (WorkerTables.new workerCount)
      (sorted.map (buildNodes bundles looseTxs).get))
    (hDisjoint : (buildNodes bundles looseTxs).Pairwise fun a b =>
      Disjoint a.accounts b.accounts) :
    ∃ entries : Placement Node workerCount,
      entries.map Prod.fst = sorted.map (buildNodes bundles looseTxs).get ∧
      schedule heap workerCount bundles looseTxs = .ok (entries.map placed) ∧
      ∀ pre, pre <+: entries → ∀ v w,
        load Node.weight pre v ≤
          load Node.weight pre w + maxPriority (buildNodes bundles looseTxs) := by
  obtain ⟨entries, hNodes, hSchedule, hFollows⟩ := exists_placement hCount hSort hFit
  refine ⟨entries, hNodes, hSchedule, ?_⟩
  intro pre hPrefix v w
  have hPerm : (entries.map Prod.fst).Perm (buildNodes bundles looseTxs) := by
    rw [hNodes]
    exact map_getElem_perm (exists_topologicalSort_iff.mp ⟨heap, hSort⟩).perm
  have hApart : (entries.map Prod.fst).Pairwise fun a b => Disjoint a.accounts b.accounts :=
    (hPerm.pairwise_iff fun h => h.symm).mpr hDisjoint
  rw [List.pairwise_map] at hApart
  refine (hFollows.initial hPrefix).load_le ?_ (hApart.sublist hPrefix.sublist) v w
  intro e he
  exact weight_le_maxPriority (hPerm.subset (List.mem_map_of_mem (hPrefix.subset he)))

/-- Two workers for two transactions without accounts. -/
theorem schedule_balanced_noAccounts :
    let heap : BinaryHeap := fun _ => PriorityQueue.MaxHeap.ofList _
    let tx := fun signature price => Transaction.new signature [] 1000000 price
    ∃ entries : Placement Node 2,
      schedule heap 2 [] [tx "a" 1, tx "b" 2] = .ok (entries.map placed) ∧
      ∀ pre, pre <+: entries → ∀ v w, load Node.weight pre v ≤ load Node.weight pre w + 2 := by
  intro heap tx
  have hSort : topologicalSort heap (buildNodes [] [tx "a" 1, tx "b" 2])
      (buildAdjList (buildNodes [] [tx "a" 1, tx "b" 2])) =
        .ok [⟨1, by decide⟩, ⟨0, by decide⟩] := by decide +kernel
  obtain ⟨entries, -, hSchedule, hBalanced⟩ := schedule_balanced (show 1 ≤ 2 by omega) hSort
    ((Dealt.new.loadsFit_iff _).mpr (by decide +kernel)) (by decide +kernel)
  have hMax : maxPriority (buildNodes [] [tx "a" 1, tx "b" 2]) = 2 := by decide +kernel
  refine ⟨entries, hSchedule, fun pre hPrefix v w => ?_⟩
  exact (hBalanced pre hPrefix v w).trans (Nat.add_le_add_left hMax.le _)

/-! ## Overflow -/

/-- No addition of `schedule` overflows, in the compute units of a bundle or in the load
of a worker. -/
structure NoOverflow (heap : BinaryHeap) (workerCount : ℕ) (bundles : List Bundle)
    (looseTxs : List Transaction) : Prop where
  computeUnits : ∀ bundle ∈ bundles,
    AddsFit 0 (bundle.transactions.map Transaction.computeUnitLimit)
  loads : ∀ sorted, topologicalSort heap (buildNodes bundles looseTxs)
    (buildAdjList (buildNodes bundles looseTxs)) = .ok sorted →
      LoadsFit (WorkerTables.new workerCount)
        (sorted.map (buildNodes bundles looseTxs).get)

/-- The exact sum of the compute units of each bundle is a `u64`. -/
def ComputeUnitsFit (bundles : List Bundle) : Prop :=
  ∀ bundle ∈ bundles,
    (bundle.transactions.map fun tx => tx.computeUnitLimit.toNat).sum < UInt64.size

/-- With exact loads, the load that each worker ends up with is a `u64`. -/
def ExactLoadsFit (workerCount : ℕ) (nodes : List Node) : Prop :=
  ∀ w : Fin workerCount,
    load Node.weight (deal Node.accounts Node.weight [] nodes) w < UInt64.size

theorem computeUnitsFit_iff :
    ComputeUnitsFit bundles ↔ ∀ bundle ∈ bundles,
      AddsFit 0 (bundle.transactions.map Transaction.computeUnitLimit) := by
  refine forall₂_congr fun bundle _ => ?_
  rw [addsFit_iff, List.map_map, UInt64.toNat_zero, Nat.zero_add]
  rfl

theorem noOverflow_iff_of_sort
    (hSort : topologicalSort heap (buildNodes bundles looseTxs)
      (buildAdjList (buildNodes bundles looseTxs)) = .ok sorted) :
    NoOverflow heap workerCount bundles looseTxs ↔
      ComputeUnitsFit bundles ∧
        ExactLoadsFit workerCount (sorted.map (buildNodes bundles looseTxs).get) := by
  rw [computeUnitsFit_iff, ExactLoadsFit, ← Dealt.new.loadsFit_iff]
  constructor
  · intro h
    exact ⟨h.computeUnits, h.loads sorted hSort⟩
  · rintro ⟨hUnits, hLoads⟩
    refine ⟨hUnits, fun sorted' hSort' => ?_⟩
    cases hSort.symm.trans hSort'
    exact hLoads

/-- Whatever the heap does, no addition overflows: exactly for the batches whose exact
sums are `u64`s in every order in which the nodes can be emitted. -/
theorem noOverflow_iff (workerCount : ℕ) (bundles : List Bundle) (looseTxs : List Transaction) :
    (∀ heap, NoOverflow heap workerCount bundles looseTxs) ↔
      ComputeUnitsFit bundles ∧
        ∀ sorted, EmissionOrder (buildNodes bundles looseTxs) sorted →
          ExactLoadsFit workerCount (sorted.map (buildNodes bundles looseTxs).get) := by
  constructor
  · intro h
    constructor
    · exact computeUnitsFit_iff.mpr (h fun _ => PriorityQueue.MaxHeap.ofList _).computeUnits
    · intro sorted hOrder
      obtain ⟨heap, hSort⟩ := exists_topologicalSort_iff.mpr hOrder
      exact ((noOverflow_iff_of_sort hSort).mp (h heap)).2
  · rintro ⟨hUnits, hLoads⟩ heap
    obtain ⟨sorted, hSort, hOrder⟩ := topologicalSort_precedes heap (buildNodes bundles looseTxs)
    exact (noOverflow_iff_of_sort hSort).mpr ⟨hUnits, hLoads sorted hOrder⟩

/-- The exact sum of the priorities of all units. -/
def prioritySum (bundles : List Bundle) (looseTxs : List Transaction) : ℕ :=
  ((buildNodes bundles looseTxs).map Node.weight).sum

/-- In whatever order the units are emitted, the loads are together the sum of the priorities. -/
theorem sum_map_weight_deal (hCount : 0 < workerCount)
    (hOrder : EmissionOrder (buildNodes bundles looseTxs) sorted) :
    ((deal (n := workerCount) Node.accounts Node.weight []
      (sorted.map (buildNodes bundles looseTxs).get)).map fun e => e.1.weight).sum =
        prioritySum bundles looseTxs := by
  have hNodes : (deal (n := workerCount) Node.accounts Node.weight []
      (sorted.map (buildNodes bundles looseTxs).get)).map Prod.fst =
        sorted.map (buildNodes bundles looseTxs).get := map_fst_deal hCount [] _
  have hWeights := congrArg (fun nodes => (nodes.map Node.weight).sum) hNodes
  rw [List.map_map] at hWeights
  exact hWeights.trans ((map_getElem_perm hOrder.perm).map Node.weight).sum_eq

theorem exactLoadsFit_of_prioritySum (hCount : 0 < workerCount)
    (hOrder : EmissionOrder (buildNodes bundles looseTxs) sorted)
    (hSum : prioritySum bundles looseTxs < UInt64.size) :
    ExactLoadsFit workerCount (sorted.map (buildNodes bundles looseTxs).get) := by
  intro w
  refine lt_of_le_of_lt (load_le_sum Node.weight _ w) ?_
  rwa [sum_map_weight_deal hCount hOrder]

/-- Loads that are `u64`s have no larger sum than as many times the largest one. -/
theorem prioritySum_le_of_exactLoadsFit (hCount : 0 < workerCount)
    (hOrder : EmissionOrder (buildNodes bundles looseTxs) sorted)
    (hFit : ExactLoadsFit workerCount (sorted.map (buildNodes bundles looseTxs).get)) :
    prioritySum bundles looseTxs ≤ workerCount * (UInt64.size - 1) := by
  rw [← sum_map_weight_deal hCount hOrder, ← sum_load]
  refine (Finset.sum_le_card_nsmul _ _ (UInt64.size - 1) ?_).trans ?_
  · intro w _
    exact Nat.le_pred_of_lt (hFit w)
  · rw [Finset.card_univ, Fintype.card_fin, smul_eq_mul]

/-- The batches on which no addition overflows, whatever the number of workers and the order of
the heap: the compute units of each bundle and the priorities of all units are sums below
`2 ^ 64`. With a given number of workers this is enough, too, and so much is necessary: the
sums of the bundles, and `2 ^ 64 - 1` for each worker. -/
theorem noOverflow_iff_sums (bundles : List Bundle) (looseTxs : List Transaction) :
    ((∀ workerCount, 1 ≤ workerCount → ∀ heap, NoOverflow heap workerCount bundles looseTxs) ↔
      ComputeUnitsFit bundles ∧ prioritySum bundles looseTxs < UInt64.size) ∧
    ∀ workerCount, 1 ≤ workerCount → (∀ heap, NoOverflow heap workerCount bundles looseTxs) →
      ComputeUnitsFit bundles ∧
        prioritySum bundles looseTxs ≤ workerCount * (UInt64.size - 1) := by
  have hNecessary : ∀ workerCount, 1 ≤ workerCount →
      (∀ heap, NoOverflow heap workerCount bundles looseTxs) → ComputeUnitsFit bundles ∧
        prioritySum bundles looseTxs ≤ workerCount * (UInt64.size - 1) := by
    intro workerCount hCount hAll
    obtain ⟨hUnits, hLoads⟩ := (noOverflow_iff workerCount bundles looseTxs).mp hAll
    obtain ⟨sorted, -, hOrder⟩ := topologicalSort_precedes
      (fun _ => PriorityQueue.MaxHeap.ofList _) (buildNodes bundles looseTxs)
    exact ⟨hUnits, prioritySum_le_of_exactLoadsFit hCount hOrder (hLoads sorted hOrder)⟩
  refine ⟨⟨?_, ?_⟩, hNecessary⟩
  · intro hAll
    -- a single worker gets all units
    obtain ⟨hUnits, hSum⟩ := hNecessary 1 le_rfl (hAll 1 le_rfl)
    refine ⟨hUnits, ?_⟩
    rw [Nat.one_mul] at hSum
    exact Nat.lt_of_le_pred (by decide) hSum
  · rintro ⟨hUnits, hSum⟩ workerCount hCount
    refine (noOverflow_iff workerCount bundles looseTxs).mpr ⟨hUnits, ?_⟩
    intro sorted hOrder
    exact exactLoadsFit_of_prioritySum hCount hOrder hSum

end Schedule

/-- Three bundles of one compute unit, whose priorities are a million times their tips. -/
def threeBundles (second third : Pubkey) : List Bundle :=
  let bundle := fun id account tip =>
    Bundle.new id [Transaction.new "t" [AccountMeta.new account true] 1 0] tip "s"
  [bundle 1 (Pubkey.filled 1) 9223372036860, bundle 2 second 9223372036851,
    bundle 3 third 9223372036850]

/-- With two workers the sums do not decide. If the last two bundles share an account, the last
one has to join the first one. -/
theorem noOverflow_depends_on_accounts :
    let heap : BinaryHeap := fun _ => PriorityQueue.MaxHeap.ofList _
    NoOverflow heap 2 (threeBundles (Pubkey.filled 2) (Pubkey.filled 3)) [] ∧
      ¬ NoOverflow heap 2 (threeBundles (Pubkey.filled 2) (Pubkey.filled 2)) [] := by
  intro heap
  have hApart : topologicalSort heap
      (buildNodes (threeBundles (Pubkey.filled 2) (Pubkey.filled 3)) [])
      (buildAdjList (buildNodes (threeBundles (Pubkey.filled 2) (Pubkey.filled 3)) [])) =
        .ok [⟨0, by decide⟩, ⟨1, by decide⟩, ⟨2, by decide⟩] := by decide +kernel
  have hShared : topologicalSort heap
      (buildNodes (threeBundles (Pubkey.filled 2) (Pubkey.filled 2)) [])
      (buildAdjList (buildNodes (threeBundles (Pubkey.filled 2) (Pubkey.filled 2)) [])) =
        .ok [⟨0, by decide⟩, ⟨1, by decide⟩, ⟨2, by decide⟩] := by decide +kernel
  rw [noOverflow_iff_of_sort hApart, noOverflow_iff_of_sort hShared]
  constructor
  · refine ⟨?_, ?_⟩
    · unfold ComputeUnitsFit
      decide +kernel
    · unfold ExactLoadsFit
      decide +kernel
  · intro hNone
    exact absurd (hNone.2 ⟨0, Nat.zero_lt_two⟩) (by decide +kernel)

/-- A bundle of one compute unit whose priority saturates. -/
def dearBundle (id : UInt64) : Bundle :=
  Bundle.new id [Transaction.new "t" [] 1 0] 18446744073709551615 "s"

/-- Two saturated priorities do not fit one load. -/
theorem not_noOverflow :
    ¬ ∀ (heap : BinaryHeap) (workerCount : ℕ), 1 ≤ workerCount →
      ∀ (bundles : List Bundle) (looseTxs : List Transaction),
        NoOverflow heap workerCount bundles looseTxs := by
  intro hAll
  let heap : BinaryHeap := fun _ => PriorityQueue.MaxHeap.ofList _
  have hNone := hAll heap 1 le_rfl [dearBundle 1, dearBundle 2] []
  have hSort : topologicalSort heap (buildNodes [dearBundle 1, dearBundle 2] [])
      (buildAdjList (buildNodes [dearBundle 1, dearBundle 2] [])) =
        .ok [⟨1, by decide⟩, ⟨0, by decide⟩] := by decide +kernel
  have hLoads := ((noOverflow_iff_of_sort hSort).mp hNone).2
  exact absurd (hLoads ⟨0, Nat.zero_lt_one⟩) (by decide +kernel)

end PrioGraphScheduler

end Blunder
