import Blunder.Scheduler.PrioGraph
import Blunder.Foundation.StableSort

/-!
# The order in which the priority graph is emitted

Kahn's loop sorts nothing; the heap only chooses among the ready nodes. Still the nodes
come out by descending priority: a node that is not ready yet has a ready ancestor, and
along the edges the priority does not rise. `Precedes` is what holds between a node and
all that are emitted after it.

* `exists_topologicalSort_iff`: the orders in which the nodes can come out.
* `schedule_exact`: the graph is acyclic, the loop drains it, and every unit gets one
  assignment, whichever ids repeat.
* `schedule_inPriorityOrder`: the order of the assignments.
* `schedule_of_perm`: with distinct priorities the order of the input does not matter.
-/

namespace Blunder

open Foundation

namespace PrioGraphScheduler

/-! ## Acyclicity -/

section ConflictGraph

variable {nodes : List Node}

/-- A path along edges goes from a node to one that comes later in `Before`. -/
theorem before_of_path {i j : Fin nodes.length}
    (h : Relation.TransGen (fun u v => v ∈ buildAdjList nodes u) i j) : Before nodes i j := by
  induction h with
  | single hEdge => exact (mem_buildAdjList.mp hEdge).2
  | tail _ hEdge ih => exact ih.trans (mem_buildAdjList.mp hEdge).2

theorem not_path_self (i : Fin nodes.length) :
    ¬ Relation.TransGen (fun u v => v ∈ buildAdjList nodes u) i i := by
  intro h
  exact Before.irrefl i (before_of_path h)

theorem Before.priority_le {i j : Fin nodes.length} (h : Before nodes i j) :
    (nodes.get j).priority ≤ (nodes.get i).priority := by
  rcases h with h | ⟨h, -⟩
  · exact UInt64.le_of_lt h
  · exact UInt64.le_of_eq h.symm

theorem priority_le_of_path {i j : Fin nodes.length}
    (h : Relation.ReflTransGen (fun u v => v ∈ buildAdjList nodes u) i j) :
    (nodes.get j).priority ≤ (nodes.get i).priority := by
  rcases Relation.reflTransGen_iff_eq_or_transGen.mp h with rfl | h
  · exact UInt64.le_refl _
  · exact (before_of_path h).priority_le

end ConflictGraph

/-! ## The order of Kahn's loop -/

/-- What holds between a node and those emitted after it. -/
def Precedes (nodes : List Node) (i j : Fin nodes.length) : Prop :=
  (nodes.get j).priority ≤ (nodes.get i).priority ∧ ¬ Edge nodes j i

/-- An order in which the nodes can be emitted: all of them, each preceding the later ones. -/
structure EmissionOrder (nodes : List Node) (sorted : List (Fin nodes.length)) : Prop where
  perm : sorted.Perm (List.finRange nodes.length)
  pairwise : sorted.Pairwise (Precedes nodes)

theorem EmissionOrder.nodup {nodes : List Node} {sorted : List (Fin nodes.length)}
    (h : EmissionOrder nodes sorted) : sorted.Nodup :=
  h.perm.nodup_iff.mpr (List.nodup_finRange _)

section TopologicalSort

variable {heap : BinaryHeap} {nodes : List Node}

/-- The node that is popped precedes all that are missing, wherever they are blocked. -/
theorem precedes_of_pop {s : SortState heap nodes.length} {node : PriorityNode nodes.length}
    {h : (heap nodes.length).Heap} (hInv : SortInv (buildAdjList nodes) s [])
    (hPop : (heap nodes.length).pop s.heap = some (node, h)) :
    node.index ∉ s.sorted ∧ ∀ u, u ∉ s.sorted → Precedes nodes node.index u := by
  obtain ⟨queue, hContents, hProgress⟩ := hInv
  obtain ⟨v, hv, rfl⟩ := exists_ready_of_pop hContents hPop
  refine ⟨((hProgress.mem_queue v).mp hv).1, ?_⟩
  intro u hu
  constructor
  · obtain ⟨r, hr, hPath⟩ := hProgress.exists_ready (before_wellFounded nodes)
      (fun u v hv => (mem_buildAdjList.mp hv).2) u hu
    have hKey : (nodes.get r).priority ≤ (nodes.get v).priority := by
      refine (heap nodes.length).key_le_of_pop _ _ _ hPop (heapEntry nodes r) ?_
      rw [hContents]
      exact Multiset.mem_map_of_mem _ hr
    exact UInt64.le_trans (priority_le_of_path hPath) hKey
  · intro hEdge
    exact hProgress.notMem_adj hv hu (mem_buildAdjList.mpr hEdge)

/-- Every node is emitted once, and after all that it has to follow. -/
theorem topologicalSort_precedes (heap : BinaryHeap) (nodes : List Node) :
    ∃ sorted, topologicalSort heap nodes (buildAdjList nodes) = .ok sorted ∧
      EmissionOrder nodes sorted := by
  obtain ⟨sorted, hSort, hPerm⟩ := topologicalSort_buildAdjList heap nodes
  have hStart : SortInv (buildAdjList nodes) (SortState.start heap nodes (buildAdjList nodes)) [] :=
    start_inv
  obtain ⟨sorted', inDegree, hSort', -, hLeads⟩ :=
    drain_spec (P := Kahn.Leads (Precedes nodes))
      (fun s node h hInv hLeads hPop => by
        obtain ⟨hMissing, hNext⟩ := precedes_of_pop hInv hPop
        exact hLeads.emit hMissing fun u hu _ => hNext u hu)
      hStart Kahn.Leads.nil (Nat.le_add_left _ _)
  have hSame : sorted = sorted' := Except.ok.inj (hSort.symm.trans hSort')
  exact ⟨sorted, hSort, ⟨hPerm, hSame ▸ hLeads.pairwise⟩⟩

/-- The position of a heap entry in an order of the nodes. -/
def position (sorted : List (Fin nodes.length)) {n : ℕ} (node : PriorityNode n) : ℕ :=
  (sorted.map Fin.val).idxOf node.index.val

/-- The heap that pops, of several nodes with one priority, the one that stands first. -/
def heapFor (sorted : List (Fin nodes.length)) : BinaryHeap := fun _ =>
  PriorityQueue.MaxHeap.ranked _ (position sorted)

theorem position_lt {pre post : List (Fin nodes.length)} {u v : Fin nodes.length}
    (hNodup : (pre ++ v :: post).Nodup) (hu : u ∈ post) :
    position (pre ++ v :: post) (heapEntry nodes v) <
      position (pre ++ v :: post) (heapEntry nodes u) := by
  have hVals := hNodup.map Fin.val_injective
  rw [List.map_append, List.map_cons] at hVals
  obtain ⟨-, hLast, hApart⟩ := List.nodup_append.mp hVals
  have huVal : u.val ∈ post.map Fin.val := List.mem_map_of_mem hu
  have hvPre : v.val ∉ pre.map Fin.val := fun hv => hApart _ hv _ List.mem_cons_self rfl
  have huPre : u.val ∉ pre.map Fin.val := fun hu =>
    hApart _ hu _ (List.mem_cons_of_mem _ huVal) rfl
  have hne : v.val ≠ u.val := by
    intro hEq
    exact (List.nodup_cons.mp hLast).1 (hEq ▸ huVal)
  simp only [position, heapEntry, List.map_append, List.map_cons]
  rw [List.idxOf_append_of_notMem hvPre, List.idxOf_append_of_notMem huPre, List.idxOf_cons_self,
    List.idxOf_cons_ne _ hne]
  omega

/-- The next node of the order is ready, as all that it has to follow was emitted. -/
theorem mem_queue_of_next {sorted pre post : List (Fin nodes.length)} {v : Fin nodes.length}
    (hOrder : EmissionOrder nodes sorted) (hSplit : sorted = pre ++ v :: post)
    {inDegree : Fin nodes.length → ℕ} {queue : Multiset (Fin nodes.length)}
    (hProgress : Kahn.Progress (buildAdjList nodes) inDegree queue pre []) : v ∈ queue := by
  have hNodup : (pre ++ v :: post).Nodup := hSplit ▸ hOrder.nodup
  have hvMissing : v ∉ pre := fun hv =>
    List.disjoint_of_nodup_append hNodup hv List.mem_cons_self
  by_contra hvQueue
  obtain ⟨u, huMissing, huv⟩ := hProgress.blocked hvMissing hvQueue
  have huOrder : u ∈ pre ++ v :: post := by
    rw [← hSplit]
    exact hOrder.perm.mem_iff.mpr (List.mem_finRange u)
  have hEdge := mem_buildAdjList.mp huv
  have hPairwise := hOrder.pairwise
  rw [hSplit, List.pairwise_append, List.pairwise_cons] at hPairwise
  rcases List.mem_cons.mp ((List.mem_append.mp huOrder).resolve_left huMissing) with rfl | hu
  · exact Before.irrefl _ hEdge.2
  · exact (hPairwise.2.1.1 u hu).2 hEdge

theorem prefix_of_pop {sorted : List (Fin nodes.length)} (hOrder : EmissionOrder nodes sorted)
    {s : SortState (heapFor sorted) nodes.length} {node : PriorityNode nodes.length}
    {h : (heapFor sorted nodes.length).Heap} (hInv : SortInv (buildAdjList nodes) s [])
    (hPrefix : s.sorted <+: sorted) (hPop : (heapFor sorted nodes.length).pop s.heap = some (node, h)) :
    s.sorted ++ [node.index] <+: sorted := by
  obtain ⟨rest, hSplit⟩ := hPrefix
  obtain ⟨hMissing, hNext⟩ := precedes_of_pop hInv hPop
  have hRest : node.index ∈ rest := by
    have hMem := hOrder.perm.mem_iff.mpr (List.mem_finRange node.index)
    rw [← hSplit] at hMem
    exact (List.mem_append.mp hMem).resolve_left hMissing
  cases rest with
  | nil => exact absurd hRest List.not_mem_nil
  | cons v post =>
    suffices hSame : node.index = v by
      refine ⟨post, ?_⟩
      rw [hSame, List.append_assoc]
      exact hSplit
    obtain ⟨queue, hContents, hProgress⟩ := hInv
    have hvQueue := mem_queue_of_next hOrder hSplit.symm hProgress
    have hvMissing := ((hProgress.mem_queue v).mp hvQueue).1
    by_contra hne
    have hPost : node.index ∈ post := (List.mem_cons.mp hRest).resolve_left hne
    -- `v` is in the heap too, with the same priority and a lower rank.
    have hPairwise := hOrder.pairwise
    rw [← hSplit, List.pairwise_append, List.pairwise_cons] at hPairwise
    have hEq : (nodes.get v).priority = (nodes.get node.index).priority :=
      UInt64.le_antisymm (hNext v hvMissing).1 (hPairwise.2.1.1 _ hPost).1
    have hvHeap : heapEntry nodes v ∈ (heapFor sorted nodes.length).contents s.heap := by
      rw [hContents]
      exact Multiset.mem_map_of_mem _ hvQueue
    obtain ⟨u, -, rfl⟩ := exists_ready_of_pop hContents hPop
    have hRank := PriorityQueue.MaxHeap.rank_le_of_pop hPop hvHeap (congrArg UInt64.toNat hEq)
    have hLt : position sorted (heapEntry nodes v) < position sorted (heapEntry nodes u) := by
      rw [← hSplit]
      refine position_lt ?_ hPost
      rw [hSplit]
      exact hOrder.nodup
    omega

/-- These orders are those in which some heap lets Kahn's loop emit the nodes. -/
theorem exists_topologicalSort_iff {sorted : List (Fin nodes.length)} :
    (∃ heap, topologicalSort heap nodes (buildAdjList nodes) = .ok sorted) ↔
      EmissionOrder nodes sorted := by
  constructor
  · rintro ⟨heap, hSort⟩
    obtain ⟨sorted', hSort', hOrder⟩ := topologicalSort_precedes heap nodes
    cases hSort.symm.trans hSort'
    exact hOrder
  · intro hOrder
    refine ⟨heapFor sorted, ?_⟩
    have hStart : SortInv (buildAdjList nodes)
        (SortState.start (heapFor sorted) nodes (buildAdjList nodes)) [] := start_inv
    obtain ⟨sorted', inDegree, hSort, -, hPrefix⟩ :=
      drain_spec (P := (· <+: sorted)) (fun s node h hInv hPrefix hPop =>
        prefix_of_pop hOrder hInv hPrefix hPop) hStart List.nil_prefix (Nat.le_add_left _ _)
    obtain ⟨sorted'', hSort', hOrder'⟩ := topologicalSort_precedes (heapFor sorted) nodes
    cases hSort.symm.trans hSort'
    have hLength := (hOrder'.perm.trans hOrder.perm.symm).length_eq
    exact hSort.trans (congrArg Except.ok (hPrefix.eq_of_length hLength))

end TopologicalSort

/-! ## The nodes as they are emitted -/

/-- Also for the empty batch, which `schedule` answers before it builds the graph. -/
theorem schedule_eq_assignWorkers {heap : BinaryHeap} {bundles : List Bundle}
    {looseTxs : List Transaction} {sorted : List (Fin (buildNodes bundles looseTxs).length)}
    (hSort : topologicalSort heap (buildNodes bundles looseTxs)
      (buildAdjList (buildNodes bundles looseTxs)) = .ok sorted) (workerCount : ℕ) :
    schedule heap workerCount bundles looseTxs =
      assignWorkers workerCount (buildNodes bundles looseTxs) sorted := by
  unfold schedule
  split
  · rename_i hEmpty
    rw [Bool.and_eq_true, List.isEmpty_iff, List.isEmpty_iff] at hEmpty
    obtain ⟨rfl, rfl⟩ := hEmpty
    cases sorted with
    | nil => rfl
    | cons i _ => exact i.elim0
  · simp only [buildPriorityGraph, hSort]
    rfl

/-- Of a batch the workers see its nodes, by descending priority. -/
theorem schedule_eq_assignFrom (heap : BinaryHeap) (bundles : List Bundle)
    (looseTxs : List Transaction) :
    ∃ order : List Node, order.Perm (buildNodes bundles looseTxs) ∧
      order.Pairwise (fun a b => b.priority ≤ a.priority) ∧
      ∀ workerCount, schedule heap workerCount bundles looseTxs =
        assignFrom (WorkerTables.new workerCount) order := by
  obtain ⟨sorted, hSort, hOrder⟩ := topologicalSort_precedes heap (buildNodes bundles looseTxs)
  refine ⟨_, map_getElem_perm hOrder.perm, List.pairwise_map.mpr ?_,
    schedule_eq_assignWorkers hSort⟩
  exact hOrder.pairwise.imp And.left

/-- The units of the assignments come by descending priority. -/
theorem schedule_order (heap : BinaryHeap) {workerCount : ℕ} (hCount : 1 ≤ workerCount)
    (bundles : List Bundle) (looseTxs : List Transaction) :
    ∃ order assignments, schedule heap workerCount bundles looseTxs = .ok assignments ∧
      order.Perm (batchUnits bundles looseTxs) ∧
      List.Forall₂ (fun unit a => ∃ w < workerCount, a = SchedulableUnit.assignment unit w)
        order assignments ∧
      order.Pairwise fun a b => (unitNode b).priority ≤ (unitNode a).priority := by
  obtain ⟨nodeOrder, hNodes, hDesc, hSchedule⟩ := schedule_eq_assignFrom heap bundles looseTxs
  rw [buildNodes_eq] at hNodes
  obtain ⟨order, hOrder, rfl⟩ := exists_order_of_nodes hNodes
  obtain ⟨assignments, hAssign, hAll⟩ := assignFrom_spec hCount (WorkerTables.new workerCount)
    (order.map unitNode)
  rw [List.forall₂_map_left_iff] at hAll
  refine ⟨order, assignments, (hSchedule workerCount).trans hAssign, hOrder, ?_,
    List.pairwise_map.mp hDesc⟩
  simpa only [unitNode_assignment] using hAll

/-- Some heap lets the units come out as the stable sort by priority has them. -/
theorem exists_heap_stableSort (bundles : List Bundle) (looseTxs : List Transaction) :
    ∃ heap, ∀ workerCount, schedule heap workerCount bundles looseTxs =
      assignFrom (WorkerTables.new workerCount)
        ((StableSort.sortByKeyRev (fun unit => (unitNode unit).priority.toNat)
          (batchUnits bundles looseTxs)).map unitNode) := by
  let nodes := buildNodes bundles looseTxs
  let sorted := StableSort.sortByKeyRev (fun i => (nodes.get i).priority.toNat)
    (List.finRange nodes.length)
  have hBefore : sorted.Pairwise (Before nodes) := by
    refine (StableSort.pairwise_sortByKeyRev (List.pairwise_lt_finRange _)).imp ?_
    rintro i j (hLt | ⟨hEq, hij⟩)
    · exact Or.inl hLt
    · exact Or.inr ⟨UInt64.toNat_inj.mp hEq.symm, hij⟩
  have hOrder : EmissionOrder nodes sorted := by
    refine ⟨StableSort.sortByKeyRev_perm _ _, hBefore.imp fun h => ⟨h.priority_le, ?_⟩⟩
    intro hEdge
    exact Before.irrefl _ (h.trans hEdge.2)
  obtain ⟨heap, hSort⟩ := exists_topologicalSort_iff.mpr hOrder
  refine ⟨heap, fun workerCount => ?_⟩
  have hNodes : sorted.map nodes.get = (StableSort.sortByKeyRev
      (fun unit => (unitNode unit).priority.toNat) (batchUnits bundles looseTxs)).map unitNode := by
    rw [← StableSort.sortByKeyRev_map (fun node : Node => node.priority.toNat),
      List.map_get_finRange,
      ← StableSort.sortByKeyRev_map (fun node : Node => node.priority.toNat), ← buildNodes_eq]
  rw [← hNodes]
  exact schedule_eq_assignWorkers hSort workerCount

/-- Distinct priorities leave one descending order of the nodes. -/
theorem order_unique {nodes order order' : List Node}
    (hDistinct : (nodes.map Node.priority).Nodup) (hOrder : order.Perm nodes)
    (hOrder' : order'.Perm nodes) (hDesc : order.Pairwise fun a b => b.priority ≤ a.priority)
    (hDesc' : order'.Pairwise fun a b => b.priority ≤ a.priority) : order = order' := by
  refine List.Perm.eq_of_pairwise ?_ hDesc hDesc' (hOrder.trans hOrder'.symm)
  intro a b ha hb hba hab
  exact List.inj_on_of_nodup_map hDistinct (hOrder.subset ha) (hOrder'.subset hb)
    (UInt64.le_antisymm hab hba)

theorem buildNodes_perm {bundles bundles' : List Bundle} {looseTxs looseTxs' : List Transaction}
    (hBundles : bundles'.Perm bundles) (hTxs : looseTxs'.Perm looseTxs) :
    (buildNodes bundles' looseTxs').Perm (buildNodes bundles looseTxs) :=
  (hBundles.map _).append (hTxs.map _)

/-! ## Main results -/

/-- The graph has no cycle, Kahn's loop drains it, and every unit gets one assignment, to
a worker there is. -/
theorem schedule_exact (heap : BinaryHeap) {workerCount : ℕ} (hCount : 1 ≤ workerCount)
    (bundles : List Bundle) (looseTxs : List Transaction) :
    let graph := buildPriorityGraph bundles looseTxs
    (∀ i, ¬ Relation.TransGen (fun u v => v ∈ graph.2 u) i i) ∧
      (∃ sorted, topologicalSort heap graph.1 graph.2 = .ok sorted ∧
        sorted.Perm (List.finRange graph.1.length)) ∧
      ∃ assignments, schedule heap workerCount bundles looseTxs = .ok assignments ∧
        (assignments.map fun a => (a.unitId, a.isBundle)).Perm
          (bundles.map (fun bundle => (toString bundle.id, true)) ++
            looseTxs.map fun tx => (tx.signature, false)) ∧
        ∀ a ∈ assignments, a.workerId < workerCount := by
  obtain ⟨assignments, hSchedule, hAssigns⟩ := schedule_spec heap hCount bundles looseTxs
  refine ⟨not_path_self, topologicalSort_buildAdjList heap _, assignments, hSchedule, ?_,
    hAssigns.workerId_lt⟩
  have hPairs := hAssigns.map_perm (f := fun unit => (unit.unitId, unit.isAtomic))
    (g := fun a => (a.unitId, a.isBundle)) fun _ _ => rfl
  rw [batchUnits, List.map_append, List.map_map, List.map_map] at hPairs
  exact hPairs

/-- Two transactions with one signature get two assignments. -/
theorem schedule_exact_repeatedId :
    let heap : BinaryHeap := fun _ => PriorityQueue.MaxHeap.ofList _
    let tx := Transaction.new "a" [] 1 1
    ∃ assignments, schedule heap 1 [] [tx, tx] = .ok assignments ∧
      (assignments.map fun a => (a.unitId, a.isBundle)).Perm [("a", false), ("a", false)] ∧
      ∀ a ∈ assignments, a.workerId < 1 := by
  intro heap tx
  exact (schedule_exact heap le_rfl [] [tx, tx]).2.2

/-- The assignments come by descending priority, whether or not the units conflict; units
of one priority that share an account keep the order of the input. -/
theorem schedule_inPriorityOrder (heap : BinaryHeap) {workerCount : ℕ} (hCount : 1 ≤ workerCount)
    (bundles : List Bundle) (looseTxs : List Transaction) :
    let nodes := buildNodes bundles looseTxs
    ∃ (sorted : List (Fin nodes.length)) (assignments : List WorkerAssignment),
      topologicalSort heap nodes (buildAdjList nodes) = .ok sorted ∧
      schedule heap workerCount bundles looseTxs = .ok assignments ∧
      sorted.Perm (List.finRange nodes.length) ∧
      List.Forall₂ (fun i a => ∃ w < workerCount, a = (nodes.get i).assignment w) sorted assignments ∧
      sorted.Pairwise (fun i j => (nodes.get j).priority ≤ (nodes.get i).priority) ∧
      sorted.Pairwise fun i j => ¬ Disjoint (nodes.get i).accounts (nodes.get j).accounts →
        (nodes.get i).priority = (nodes.get j).priority → i < j := by
  intro nodes
  obtain ⟨sorted, hSort, hOrder⟩ := topologicalSort_precedes heap nodes
  obtain ⟨assignments, hAssign, hAll⟩ := assignFrom_spec hCount (WorkerTables.new workerCount)
    (sorted.map nodes.get)
  refine ⟨sorted, assignments, hSort, (schedule_eq_assignWorkers hSort workerCount).trans hAssign,
    hOrder.perm, List.forall₂_map_left_iff.mp hAll, hOrder.pairwise.imp And.left, ?_⟩
  refine (hOrder.pairwise.and hOrder.nodup).imp ?_
  rintro i j ⟨⟨-, hNoEdge⟩, hne⟩ hShare hEq
  rcases lt_or_gt_of_ne hne with hij | hji
  · exact hij
  · exact absurd ⟨fun h => hShare h.symm, Or.inr ⟨hEq.symm, hji⟩⟩ hNoEdge

theorem schedule_inPriorityOrder_sharedAccount :
    let heap : BinaryHeap := fun _ => PriorityQueue.MaxHeap.ofList _
    let tx := Transaction.new "a" [AccountMeta.new (Pubkey.filled 1) true] 1 1
    let nodes := buildNodes [] [tx, tx]
    ∃ sorted : List (Fin nodes.length),
      topologicalSort heap nodes (buildAdjList nodes) = .ok sorted ∧
      sorted.Pairwise fun i j => ¬ Disjoint (nodes.get i).accounts (nodes.get j).accounts →
        (nodes.get i).priority = (nodes.get j).priority → i < j := by
  intro heap tx nodes
  obtain ⟨sorted, assignments, hSort, -, -, -, -, hOrder⟩ :=
    schedule_inPriorityOrder heap (le_refl 1) [] [tx, tx]
  exact ⟨sorted, hSort, hOrder⟩

/-- Bundles and transactions in another order, and a heap that breaks ties otherwise,
give the same assignments. -/
theorem schedule_of_perm (heap heap' : BinaryHeap) (workerCount : ℕ)
    {bundles bundles' : List Bundle} {looseTxs looseTxs' : List Transaction}
    (hDistinct : ((buildNodes bundles looseTxs).map Node.priority).Nodup)
    (hBundles : bundles'.Perm bundles) (hTxs : looseTxs'.Perm looseTxs) :
    schedule heap' workerCount bundles' looseTxs' = schedule heap workerCount bundles looseTxs := by
  obtain ⟨order, hOrder, hDesc, hSchedule⟩ := schedule_eq_assignFrom heap bundles looseTxs
  obtain ⟨order', hOrder', hDesc', hSchedule'⟩ := schedule_eq_assignFrom heap' bundles' looseTxs'
  have hSame := order_unique hDistinct hOrder (hOrder'.trans (buildNodes_perm hBundles hTxs))
    hDesc hDesc'
  rw [hSchedule, hSchedule', hSame]

theorem schedule_of_perm_twoPrices :
    let heap : BinaryHeap := fun _ => PriorityQueue.MaxHeap.ofList _
    let cheap := Transaction.new "a" [] 1000000 1
    let dear := Transaction.new "b" [] 1000000 2
    schedule heap 2 [] [dear, cheap] = schedule heap 2 [] [cheap, dear] := by
  intro heap cheap dear
  exact schedule_of_perm heap heap 2 (by decide +kernel) (List.Perm.refl [])
    (List.Perm.swap cheap dear [])

end PrioGraphScheduler

end Blunder
