import Blunder.Scheduler.Basic
import Blunder.Foundation.Kahn
import Blunder.Foundation.PriorityQueue
import Mathlib.Algebra.BigOperators.Fin
import Mathlib.Data.List.FinRange
import Mathlib.Data.List.MinMax
import Mathlib.Data.Fintype.EquivFin
import Mathlib.Order.WellFounded

/-!
# The priority-graph scheduler

`PrioGraphScheduler::schedule` makes a node of every unit, bundles first, directs an
edge between any two nodes that share an account, sorts the nodes with Kahn's algorithm
over a `BinaryHeap` and gives each a worker in that order. Indices into the node vector
are `Fin n`. `BinaryHeap` leaves the order of equal priorities open, so the heap is a
parameter: any max-heap.

* `topologicalSort_spec`: on any graph Kahn's loop ends within `n` rounds, never lowers
  an in-degree below zero and leaves `Kahn.Progress` behind.
* `topologicalSort_emits`: which nodes it emits, and in which order.
* `schedule_spec`: on the conflict graph every unit is emitted and gets a worker.
-/

namespace Blunder

open Foundation

namespace PrioGraphScheduler

/-! ## Nodes and edges -/

structure Node where
  id : String
  priority : UInt64
  accounts : Finset Pubkey
  isBundle : Bool
deriving DecidableEq

def bundleNode (bundle : Bundle) : Node where
  id := toString bundle.id
  priority := saturatingDiv (saturatingMul bundle.tip 1000000) (max bundle.totalComputeUnits 1)
  accounts := bundle.allAccounts
  isBundle := true

def transactionNode (tx : Transaction) : Node where
  id := tx.signature
  priority :=
    let fee := saturatingDiv (saturatingMul tx.computeUnitPrice tx.computeUnitLimit) 1000000
    saturatingDiv (saturatingMul fee 1000000) (max tx.computeUnitLimit 1)
  accounts := tx.allAccounts
  isBundle := false

def unitNode : SchedulableUnit → Node
  | .bundle bundle => bundleNode bundle
  | .transaction tx => transactionNode tx

def buildNodes (bundles : List Bundle) (looseTxs : List Transaction) : List Node :=
  bundles.map bundleNode ++ looseTxs.map transactionNode

/-- `Vec<Vec<usize>>` over the indices of `n` nodes. -/
abbrev AdjList (n : ℕ) := Fin n → List (Fin n)

/-- `adj_list[i].push(j)`. -/
def AdjList.push {n : ℕ} (adjList : AdjList n) (i j : Fin n) : AdjList n :=
  Function.update adjList i (adjList i ++ [j])

/-- The body of the loop over the pairs `i < j`. -/
def addEdge (nodes : List Node) (adjList : AdjList nodes.length) (i j : Fin nodes.length) :
    AdjList nodes.length :=
  if Disjoint nodes[i].accounts nodes[j].accounts then adjList
  else if nodes[j].priority < nodes[i].priority then adjList.push i j
  else if nodes[i].priority < nodes[j].priority then adjList.push j i
  else adjList.push i j

/-- The pairs `i < j` in the order of the two nested loops. -/
def indexPairs (n : ℕ) : List (Fin n × Fin n) :=
  (List.finRange n).flatMap fun i => ((List.finRange n).filter (i < ·)).map fun j => (i, j)

def buildAdjList (nodes : List Node) : AdjList nodes.length :=
  (indexPairs nodes.length).foldl (fun adjList ij => addEdge nodes adjList ij.1 ij.2) fun _ => []

def buildPriorityGraph (bundles : List Bundle) (looseTxs : List Transaction) :
    (nodes : List Node) × AdjList nodes.length :=
  ⟨buildNodes bundles looseTxs, buildAdjList (buildNodes bundles looseTxs)⟩

/-! ## Kahn's loop -/

/-- `PriorityNode`: compared by priority alone. -/
structure PriorityNode (n : ℕ) where
  priority : UInt64
  index : Fin n
deriving DecidableEq

def PriorityNode.key {n : ℕ} (node : PriorityNode n) : ℕ := node.priority.toNat

/-- `BinaryHeap<PriorityNode>`, for each number of nodes. -/
abbrev BinaryHeap := (n : ℕ) → PriorityQueue.MaxHeap (PriorityNode n) PriorityNode.key

/-- The local variables of `topological_sort`. The in-degrees, `i32` in the source, count
edges and are natural numbers here; a decrement at zero is an error. `SortStateI32` has
them as they are. -/
structure SortState (heap : BinaryHeap) (n : ℕ) where
  inDegree : Fin n → ℕ
  heap : (heap n).Heap
  sorted : List (Fin n)

section TopologicalSort

variable (heap : BinaryHeap) (nodes : List Node)

/-- The heap entry of a node. -/
def heapEntry (i : Fin nodes.length) : PriorityNode nodes.length := ⟨nodes[i].priority, i⟩

def pushNode (h : (heap nodes.length).Heap) (i : Fin nodes.length) : (heap nodes.length).Heap :=
  (heap nodes.length).push h (heapEntry nodes i)

def countInDegrees {n : ℕ} (adjList : AdjList n) : Fin n → ℕ :=
  ((List.finRange n).flatMap adjList).foldl
    (fun inDegree neighbor => Function.update inDegree neighbor (inDegree neighbor + 1)) fun _ => 0

/-- The state before the `while` loop. -/
def SortState.start (adjList : AdjList nodes.length) : SortState heap nodes.length where
  inDegree := countInDegrees adjList
  heap := (List.finRange nodes.length).foldl
    (fun h i => if countInDegrees adjList i = 0 then pushNode heap nodes h i else h)
    (heap nodes.length).empty
  sorted := []

/-- The body of the loop over the neighbors. -/
def visitNeighbor (s : SortState heap nodes.length) (neighbor : Fin nodes.length) :
    Except Panic (SortState heap nodes.length) :=
  if s.inDegree neighbor = 0 then .error .subtractOverflow
  else .ok
    { s with
      inDegree := Function.update s.inDegree neighbor (s.inDegree neighbor - 1)
      heap := if s.inDegree neighbor - 1 = 0 then pushNode heap nodes s.heap neighbor else s.heap }

/-- At most `fuel` rounds of the `while` loop. -/
def drain (adjList : AdjList nodes.length) :
    ℕ → SortState heap nodes.length → Except Panic (List (Fin nodes.length))
  | 0, s =>
    match (heap nodes.length).pop s.heap with
    | none => .ok s.sorted
    | some _ => .error .unfinished
  | fuel + 1, s =>
    match (heap nodes.length).pop s.heap with
    | none => .ok s.sorted
    | some (node, h) =>
      ((adjList node.index).foldlM (visitNeighbor heap nodes)
        { s with heap := h, sorted := s.sorted ++ [node.index] }).bind (drain adjList fuel)

def topologicalSort (adjList : AdjList nodes.length) : Except Panic (List (Fin nodes.length)) :=
  drain heap nodes adjList nodes.length (SortState.start heap nodes adjList)

end TopologicalSort

/-! ## Workers -/

/-- `worker_locked` and `worker_loads`. -/
structure WorkerTables (workerCount : ℕ) where
  locked : Fin workerCount → Finset Pubkey
  loads : Fin workerCount → UInt64

def WorkerTables.new (workerCount : ℕ) : WorkerTables workerCount := ⟨fun _ => ∅, fun _ => 0⟩

variable {workerCount : ℕ}

/-- `min_by_key` over the loads: the first of several least loaded workers. -/
def leastLoaded (tables : WorkerTables workerCount) (workers : List (Fin workerCount)) :
    Option (Fin workerCount) :=
  workers.argmin fun w => (tables.loads w).toNat

/-- The worker for a node. There is none when there are no workers: `unwrap_or(0)` is
then an index out of bounds. -/
def chooseWorker (tables : WorkerTables workerCount) (node : Node) : Option (Fin workerCount) :=
  let available := (List.finRange workerCount).filter fun w =>
    decide (Disjoint node.accounts (tables.locked w))
  if available ≠ [] then leastLoaded tables available
  else leastLoaded tables (List.finRange workerCount)

/-- The loads wrap. -/
def WorkerTables.assign (tables : WorkerTables workerCount) (node : Node) (w : Fin workerCount) :
    WorkerTables workerCount where
  locked := Function.update tables.locked w (tables.locked w ∪ node.accounts)
  loads := Function.update tables.loads w (tables.loads w + node.priority)

def Node.assignment (node : Node) (workerId : ℕ) : WorkerAssignment :=
  { unitId := node.id, workerId, isBundle := node.isBundle }

def assignFrom (tables : WorkerTables workerCount) : List Node → Except Panic (List WorkerAssignment)
  | [] => .ok []
  | node :: rest =>
    match chooseWorker tables node with
    | none => .error .indexOutOfBounds
    | some w => (assignFrom (tables.assign node w) rest).map (node.assignment w :: ·)

def assignWorkers (workerCount : ℕ) (nodes : List Node) (sorted : List (Fin nodes.length)) :
    Except Panic (List WorkerAssignment) :=
  assignFrom (WorkerTables.new workerCount) (sorted.map fun i => nodes[i])

/-- `PrioGraphScheduler::schedule`, which never returns an error of its own. -/
def schedule (heap : BinaryHeap) (workerCount : ℕ) (bundles : List Bundle)
    (looseTxs : List Transaction) : Except Panic (List WorkerAssignment) :=
  if bundles.isEmpty && looseTxs.isEmpty then .ok []
  else
    let ⟨nodes, adjList⟩ := buildPriorityGraph bundles looseTxs
    (topologicalSort heap nodes adjList).bind (assignWorkers workerCount nodes)

/-! ## The conflict graph -/

section ConflictGraph

variable {nodes : List Node}

/-- A node with higher priority comes first, among equals the one with the lower index. -/
def Before (nodes : List Node) (i j : Fin nodes.length) : Prop :=
  nodes[j].priority < nodes[i].priority ∨ nodes[i].priority = nodes[j].priority ∧ i < j

/-- An edge joins two nodes that share an account. -/
def Edge (nodes : List Node) (i j : Fin nodes.length) : Prop :=
  ¬ Disjoint nodes[i].accounts nodes[j].accounts ∧ Before nodes i j

theorem Before.irrefl (i : Fin nodes.length) : ¬ Before nodes i i := by
  rintro (h | ⟨-, h⟩)
  · exact UInt64.lt_irrefl _ h
  · exact Nat.lt_irrefl _ h

theorem Before.trans {i j k : Fin nodes.length} (hij : Before nodes i j) (hjk : Before nodes j k) :
    Before nodes i k := by
  rcases hij with hij | ⟨hij, hlt⟩ <;> rcases hjk with hjk | ⟨hjk, hlt'⟩
  · exact Or.inl (UInt64.lt_trans hjk hij)
  · exact Or.inl (hjk ▸ hij)
  · exact Or.inl (hij ▸ hjk)
  · exact Or.inr ⟨hij.trans hjk, Nat.lt_trans hlt hlt'⟩

theorem before_wellFounded (nodes : List Node) : WellFounded (Before nodes) := by
  have : IsTrans (Fin nodes.length) (Before nodes) := ⟨fun _ _ _ => Before.trans⟩
  have : Std.Irrefl (Before nodes) := ⟨Before.irrefl⟩
  exact Finite.wellFounded_of_trans_of_irrefl _

theorem before_or_before {i j : Fin nodes.length} (hij : i < j) :
    Before nodes i j ∧ nodes[i].priority ≥ nodes[j].priority ∨
      Before nodes j i ∧ nodes[i].priority < nodes[j].priority := by
  by_cases hLt : nodes[i].priority < nodes[j].priority
  · exact Or.inr ⟨Or.inl hLt, hLt⟩
  · by_cases hEq : nodes[i].priority = nodes[j].priority
    · exact Or.inl ⟨Or.inr ⟨hEq, hij⟩, UInt64.not_lt.mp hLt⟩
    · have hGt := UInt64.lt_of_le_of_ne (UInt64.not_lt.mp hLt) (Ne.symm hEq)
      exact Or.inl ⟨Or.inl hGt, UInt64.not_lt.mp hLt⟩

theorem mem_push {adjList : AdjList nodes.length} {i j u v : Fin nodes.length} :
    v ∈ adjList.push i j u ↔ v ∈ adjList u ∨ (i, j) = (u, v) := by
  unfold AdjList.push
  by_cases hu : u = i
  · subst hu
    simp [eq_comm]
  · simp [hu, Ne.symm hu]

/-- A pair `i < j` gets the one edge that `Edge` allows. -/
theorem mem_addEdge {adjList : AdjList nodes.length} {i j u v : Fin nodes.length} (hij : i < j) :
    v ∈ addEdge nodes adjList i j u ↔
      v ∈ adjList u ∨ ((i, j) = (u, v) ∨ (j, i) = (u, v)) ∧ Edge nodes u v := by
  unfold addEdge
  split
  · rename_i hDisjoint
    constructor
    · exact Or.inl
    · rintro (h | ⟨hPair | hPair, hEdge⟩)
      · exact h
      · cases hPair
        exact absurd hDisjoint hEdge.1
      · cases hPair
        exact absurd hDisjoint.symm hEdge.1
  · rename_i hShare
    -- The branches compare the priorities as `Before` does.
    have hOnly : ∀ {x y : Fin nodes.length}, ¬ Disjoint nodes[x].accounts nodes[y].accounts →
        Before nodes x y → ((x, y) = (u, v) ↔
          ((x, y) = (u, v) ∨ (y, x) = (u, v)) ∧ Edge nodes u v) := by
      intro x y hxy hBefore
      constructor
      · intro hPair
        cases hPair
        exact ⟨Or.inl rfl, hxy, hBefore⟩
      · rintro ⟨hPair | hPair, hEdge⟩
        · exact hPair
        · cases hPair
          exact absurd (hBefore.trans hEdge.2) (Before.irrefl _)
    rcases before_or_before hij with ⟨hBefore, hGe⟩ | ⟨hBefore, hLt⟩
    · rw [if_neg (UInt64.not_lt.mpr hGe), ite_self, mem_push]
      exact or_congr Iff.rfl (hOnly hShare hBefore)
    · rw [if_neg (UInt64.not_lt.mpr (UInt64.le_of_lt hLt)), if_pos hLt, mem_push, or_comm (a := (i, j) = _)]
      exact or_congr Iff.rfl (hOnly (fun h => hShare h.symm) hBefore)

theorem mem_indexPairs {n : ℕ} {ij : Fin n × Fin n} : ij ∈ indexPairs n ↔ ij.1 < ij.2 := by
  obtain ⟨i, j⟩ := ij
  simp [indexPairs]

theorem mem_foldl_addEdge {pairs : List (Fin nodes.length × Fin nodes.length)}
    (hPairs : ∀ ij ∈ pairs, ij.1 < ij.2) {adjList : AdjList nodes.length}
    {u v : Fin nodes.length} :
    v ∈ pairs.foldl (fun adjList ij => addEdge nodes adjList ij.1 ij.2) adjList u ↔
      v ∈ adjList u ∨ ((u, v) ∈ pairs ∨ (v, u) ∈ pairs) ∧ Edge nodes u v := by
  induction pairs generalizing adjList with
  | nil => simp
  | cons ij pairs ih =>
    obtain ⟨i, j⟩ := ij
    have hRest : ∀ ij ∈ pairs, ij.1 < ij.2 := fun ij h => hPairs ij (List.mem_cons_of_mem _ h)
    rw [List.foldl_cons, ih hRest, mem_addEdge (hPairs (i, j) List.mem_cons_self)]
    simp only [List.mem_cons, Prod.mk.injEq]
    tauto

theorem mem_buildAdjList {u v : Fin nodes.length} : v ∈ buildAdjList nodes u ↔ Edge nodes u v := by
  rw [buildAdjList, mem_foldl_addEdge fun ij h => mem_indexPairs.mp h, mem_indexPairs,
    mem_indexPairs]
  constructor
  · rintro (h | h)
    · simp at h
    · exact h.2
  · intro hEdge
    have hne : u ≠ v := by
      rintro rfl
      exact Before.irrefl _ hEdge.2
    exact Or.inr ⟨lt_or_gt_of_ne hne, hEdge⟩

end ConflictGraph

/-! ## What Kahn's loop keeps -/

section TopologicalSort

variable {heap : BinaryHeap} {nodes : List Node} {adjList : AdjList nodes.length}

theorem foldl_countInDegrees {n : ℕ} (neighbors : List (Fin n)) (inDegree : Fin n → ℕ) (v : Fin n) :
    neighbors.foldl (fun inDegree neighbor =>
      Function.update inDegree neighbor (inDegree neighbor + 1)) inDegree v =
        inDegree v + neighbors.count v := by
  induction neighbors generalizing inDegree with
  | nil => rfl
  | cons u neighbors ih =>
    rw [List.foldl_cons, ih, List.count_cons]
    by_cases hu : u = v
    · subst hu
      simp only [Function.update_self, BEq.rfl, if_true]
      omega
    · simp [Function.update_of_ne (Ne.symm hu), hu]

theorem countInDegrees_eq {n : ℕ} (adjList : AdjList n) (v : Fin n) :
    countInDegrees adjList v = Kahn.edgesInto adjList Finset.univ v := by
  rw [countInDegrees, foldl_countInDegrees, Nat.zero_add, List.count_flatMap, Kahn.edgesInto,
    Fin.sum_univ_def]
  rfl

theorem contents_foldl_pushNode (ready : Fin nodes.length → Prop) [DecidablePred ready]
    (indices : List (Fin nodes.length)) (h : (heap nodes.length).Heap) :
    (heap nodes.length).contents
        (indices.foldl (fun h i => if ready i then pushNode heap nodes h i else h) h) =
      ((indices.filter fun i => decide (ready i) : List _) : Multiset _).map (heapEntry nodes) +
        (heap nodes.length).contents h := by
  induction indices generalizing h with
  | nil => simp
  | cons i indices ih =>
    rw [List.foldl_cons, ih, List.filter_cons]
    by_cases hi : ready i
    · rw [if_pos hi, if_pos (decide_eq_true hi), pushNode, (heap nodes.length).contents_push,
        ← Multiset.cons_coe, Multiset.map_cons, Multiset.add_cons, Multiset.cons_add]
    · simp [hi]

/-- The heap holds the entries of the ready nodes of `Kahn.Progress`. -/
def SortInv (adjList : AdjList nodes.length) (s : SortState heap nodes.length)
    (rest : List (Fin nodes.length)) : Prop :=
  ∃ queue : Multiset (Fin nodes.length),
    (heap nodes.length).contents s.heap = queue.map (heapEntry nodes) ∧
    Kahn.Progress adjList s.inDegree queue s.sorted rest

theorem start_inv : SortInv adjList (SortState.start heap nodes adjList) [] := by
  refine ⟨((List.finRange nodes.length).filter fun i =>
    decide (countInDegrees adjList i = 0) : List _), ?_, ?_⟩
  · rw [SortState.start, contents_foldl_pushNode, (heap nodes.length).contents_empty, add_zero]
  · refine Kahn.Progress.start (countInDegrees_eq adjList) ?_ ?_
    · exact Multiset.coe_nodup.mpr ((List.nodup_finRange _).filter _)
    · intro v
      simp [SortState.start]

theorem visitNeighbor_inv {s : SortState heap nodes.length} {neighbor : Fin nodes.length}
    {rest : List (Fin nodes.length)} (h : SortInv adjList s (neighbor :: rest)) :
    ∃ s', visitNeighbor heap nodes s neighbor = .ok s' ∧ SortInv adjList s' rest ∧
      s'.sorted = s.sorted := by
  obtain ⟨queue, hContents, hProgress⟩ := h
  have hPos : s.inDegree neighbor ≠ 0 := by
    have := hProgress.degree_pos
    omega
  rw [visitNeighbor, if_neg hPos]
  refine ⟨_, rfl, ⟨_, ?_, hProgress.relax⟩, rfl⟩
  split
  · rw [pushNode, (heap nodes.length).contents_push, hContents, Multiset.map_cons]
  · exact hContents

theorem visitAll_inv {s : SortState heap nodes.length} {neighbors : List (Fin nodes.length)}
    (h : SortInv adjList s neighbors) :
    ∃ s', neighbors.foldlM (visitNeighbor heap nodes) s = .ok s' ∧ SortInv adjList s' [] ∧
      s'.sorted = s.sorted := by
  induction neighbors generalizing s with
  | nil => exact ⟨s, rfl, h, rfl⟩
  | cons neighbor neighbors ih =>
    obtain ⟨mid, hMid, hInv, hSorted⟩ := visitNeighbor_inv h
    obtain ⟨s', hRest, hInv', hSorted'⟩ := ih hInv
    refine ⟨s', ?_, hInv', hSorted'.trans hSorted⟩
    rw [List.foldlM_cons, hMid]
    exact hRest

/-- A popped entry is that of a ready node. -/
theorem exists_ready_of_pop {h h' : (heap nodes.length).Heap} {node : PriorityNode nodes.length}
    {queue : Multiset (Fin nodes.length)}
    (hContents : (heap nodes.length).contents h = queue.map (heapEntry nodes))
    (hPop : (heap nodes.length).pop h = some (node, h')) :
    ∃ v ∈ queue, heapEntry nodes v = node := by
  apply Multiset.mem_map.mp
  rw [← hContents, (heap nodes.length).contents_of_pop _ _ _ hPop]
  exact Multiset.mem_cons_self _ _

theorem pop_inv {s : SortState heap nodes.length} {node : PriorityNode nodes.length}
    {h : (heap nodes.length).Heap} (hInv : SortInv adjList s [])
    (hPop : (heap nodes.length).pop s.heap = some (node, h)) :
    SortInv adjList { s with heap := h, sorted := s.sorted ++ [node.index] }
      (adjList node.index) := by
  obtain ⟨queue, hContents, hProgress⟩ := hInv
  obtain ⟨v, hv, rfl⟩ := exists_ready_of_pop hContents hPop
  obtain ⟨queue, rfl⟩ := Multiset.exists_cons_of_mem hv
  have hCons := (heap nodes.length).contents_of_pop _ _ _ hPop
  rw [hContents, Multiset.map_cons] at hCons
  exact ⟨queue, ((Multiset.cons_inj_right _).mp hCons).symm, hProgress.emit⟩

/-- All predecessors of a popped node were emitted. -/
theorem mem_sorted_of_pop {s : SortState heap nodes.length} {node : PriorityNode nodes.length}
    {h : (heap nodes.length).Heap} (hInv : SortInv adjList s [])
    (hPop : (heap nodes.length).pop s.heap = some (node, h)) {u : Fin nodes.length}
    (hu : node.index ∈ adjList u) : u ∈ s.sorted := by
  obtain ⟨queue, hContents, hProgress⟩ := hInv
  obtain ⟨v, hv, rfl⟩ := exists_ready_of_pop hContents hPop
  by_contra hMissing
  exact hProgress.notMem_adj hv hMissing hu

/-- What the rounds of the `while` loop keep of the emitted nodes, the returned order has. -/
theorem drain_spec {P : List (Fin nodes.length) → Prop}
    (hRound : ∀ (s : SortState heap nodes.length) (node : PriorityNode nodes.length)
      (h : (heap nodes.length).Heap), SortInv adjList s [] → P s.sorted →
        (heap nodes.length).pop s.heap = some (node, h) → P (s.sorted ++ [node.index]))
    {fuel : ℕ} {s : SortState heap nodes.length} (h : SortInv adjList s []) (hP : P s.sorted)
    (hFuel : nodes.length ≤ s.sorted.length + fuel) :
    ∃ sorted inDegree, drain heap nodes adjList fuel s = .ok sorted ∧
      Kahn.Progress adjList inDegree 0 sorted [] ∧ P sorted := by
  induction fuel generalizing s with
  | zero =>
    obtain ⟨queue, hContents, hProgress⟩ := h
    have hCard := hProgress.card_le
    rw [Fintype.card_fin] at hCard
    have hEmpty : queue = 0 := Multiset.card_eq_zero.mp (by omega)
    subst hEmpty
    unfold drain
    cases hPop : (heap nodes.length).pop s.heap with
    | none => exact ⟨s.sorted, s.inDegree, rfl, hProgress, hP⟩
    | some popped =>
      have hCons := (heap nodes.length).contents_of_pop _ _ _ hPop
      rw [hContents, Multiset.map_zero] at hCons
      exact absurd hCons.symm (Multiset.cons_ne_zero)
  | succ fuel ih =>
    unfold drain
    cases hPop : (heap nodes.length).pop s.heap with
    | none =>
      obtain ⟨queue, hContents, hProgress⟩ := h
      rw [(heap nodes.length).contents_of_pop_none _ hPop, eq_comm, Multiset.map_eq_zero] at hContents
      subst hContents
      exact ⟨s.sorted, s.inDegree, rfl, hProgress, hP⟩
    | some popped =>
      obtain ⟨node, h'⟩ := popped
      obtain ⟨s', hVisit, hInv, hSorted⟩ := visitAll_inv (pop_inv h hPop)
      have hP' : P s'.sorted := by
        rw [hSorted]
        exact hRound s node h' h hP hPop
      obtain ⟨sorted, inDegree, hDrain, hProgress, hAll⟩ := ih hInv hP' (by
        rw [hSorted, List.length_append, List.length_singleton]
        omega)
      refine ⟨sorted, inDegree, ?_, hProgress, hAll⟩
      simp only [hVisit]
      exact hDrain

/-- Kahn's loop ends on every graph, within one round a node, and stops when no node
is ready. -/
theorem topologicalSort_spec (heap : BinaryHeap) (nodes : List Node)
    (adjList : AdjList nodes.length) :
    ∃ sorted inDegree, topologicalSort heap nodes adjList = .ok sorted ∧
      Kahn.Progress adjList inDegree 0 sorted [] := by
  obtain ⟨sorted, inDegree, hSort, hProgress, -⟩ :=
    drain_spec (P := fun _ => True) (fun _ _ _ _ _ _ => trivial) start_inv trivial
      (Nat.le_add_left _ _)
  exact ⟨sorted, inDegree, hSort, hProgress⟩

/-- On any graph, cyclic or not, Kahn's loop ends without lowering an in-degree below zero;
it emits the nodes that no cycle leads to, once each and after all their predecessors. -/
theorem topologicalSort_emits (heap : BinaryHeap) (nodes : List Node)
    (adjList : AdjList nodes.length) :
    let edge : Fin nodes.length → Fin nodes.length → Prop := fun u v => v ∈ adjList u
    ∃ sorted, topologicalSort heap nodes adjList = .ok sorted ∧ sorted.Nodup ∧
      (∀ pre v post, sorted = pre ++ v :: post → ∀ u, edge u v → u ∈ pre) ∧
      ∀ v, v ∈ sorted ↔
        ¬ ∃ c, Relation.TransGen edge c c ∧ Relation.ReflTransGen edge c v := by
  intro edge
  have hStart : SortInv adjList (SortState.start heap nodes adjList) [] := start_inv
  obtain ⟨sorted, inDegree, hSort, hProgress, hFirst⟩ :=
    drain_spec (P := Kahn.PredecessorsFirst edge)
      (fun s node h hInv hFirst hPop => hFirst.emit fun u hu => mem_sorted_of_pop hInv hPop hu)
      hStart Kahn.PredecessorsFirst.nil (Nat.le_add_left _ _)
  exact ⟨sorted, hSort, hProgress.emitted_nodup, hFirst, fun v => hProgress.mem_emitted_iff hFirst⟩

/-- On the conflict graph every node is emitted once. -/
theorem topologicalSort_buildAdjList (heap : BinaryHeap) (nodes : List Node) :
    ∃ sorted, topologicalSort heap nodes (buildAdjList nodes) = .ok sorted ∧
      sorted.Perm (List.finRange nodes.length) := by
  obtain ⟨sorted, inDegree, hSort, hProgress⟩ :=
    topologicalSort_spec heap nodes (buildAdjList nodes)
  have hAll := hProgress.all_emitted (before_wellFounded nodes)
    fun u v hv => (mem_buildAdjList.mp hv).2
  refine ⟨sorted, hSort, (List.perm_ext_iff_of_nodup hProgress.emitted_nodup
    (List.nodup_finRange _)).mpr ?_⟩
  intro v
  simp [hAll v]

end TopologicalSort

/-! ## What the workers get -/

theorem leastLoaded_isSome {tables : WorkerTables workerCount} {workers : List (Fin workerCount)}
    (h : workers ≠ []) : ∃ w, leastLoaded tables workers = some w :=
  Option.ne_none_iff_exists'.mp fun hNone => h (List.argmin_eq_none.mp hNone)

theorem chooseWorker_isSome (hCount : 0 < workerCount) (tables : WorkerTables workerCount)
    (node : Node) : ∃ w, chooseWorker tables node = some w := by
  rw [chooseWorker]
  split
  · rename_i hAvailable
    exact leastLoaded_isSome hAvailable
  · apply leastLoaded_isSome
    intro hNil
    have hLength := congrArg List.length hNil
    rw [List.length_finRange, List.length_nil] at hLength
    omega

/-- Each node gets one assignment, in order, to some worker. -/
theorem assignFrom_spec (hCount : 0 < workerCount) (tables : WorkerTables workerCount)
    (nodes : List Node) :
    ∃ assignments, assignFrom tables nodes = .ok assignments ∧
      List.Forall₂ (fun node a => ∃ w < workerCount, a = Node.assignment node w) nodes assignments := by
  induction nodes generalizing tables with
  | nil => exact ⟨[], rfl, List.Forall₂.nil⟩
  | cons node rest ih =>
    obtain ⟨w, hw⟩ := chooseWorker_isSome hCount tables node
    obtain ⟨assignments, hRest, hAll⟩ := ih (tables.assign node w)
    refine ⟨node.assignment w :: assignments, ?_, List.Forall₂.cons ⟨w, w.isLt, rfl⟩ hAll⟩
    rw [assignFrom, hw]
    simp only [hRest, Except.map]

theorem buildNodes_eq (bundles : List Bundle) (looseTxs : List Transaction) :
    buildNodes bundles looseTxs = (batchUnits bundles looseTxs).map unitNode := by
  rw [buildNodes, batchUnits, List.map_append, List.map_map, List.map_map]
  rfl

theorem unitNode_assignment (unit : SchedulableUnit) (workerId : ℕ) :
    (unitNode unit).assignment workerId = unit.assignment workerId := by
  cases unit <;> rfl

theorem unitNode_accounts (unit : SchedulableUnit) :
    (unitNode unit).accounts = unit.allAccounts := by
  cases unit <;> rfl

theorem map_getElem_perm {nodes : List Node} {sorted : List (Fin nodes.length)}
    (h : sorted.Perm (List.finRange nodes.length)) : (sorted.map fun i => nodes[i]).Perm nodes :=
  (h.map _).trans (List.Perm.of_eq (List.map_getElem_finRange nodes))

/-- An order of the nodes is one of the units. -/
theorem exists_order_of_nodes {order : List Node} {units : List SchedulableUnit}
    (h : order.Perm (units.map unitNode)) :
    ∃ unitOrder : List SchedulableUnit, unitOrder.Perm units ∧ order = unitOrder.map unitNode := by
  have hSame : List.Forall₂ (fun node unit => node = unitNode unit) (units.map unitNode) units :=
    List.forall₂_map_left_iff.mpr (List.forall₂_same.mpr fun _ _ => rfl)
  obtain ⟨unitOrder, hOrder, hUnits⟩ := List.perm_comp_forall₂ h hSame
  refine ⟨unitOrder, hUnits, ?_⟩
  rw [← List.forall₂_eq_eq_eq, List.forall₂_map_right_iff]
  exact hOrder

/-! ## Main results -/

/-- The nodes are all that is read of a batch. -/
theorem schedule_congr (heap : BinaryHeap) (workerCount : ℕ) {bundles bundles' : List Bundle}
    {looseTxs looseTxs' : List Transaction}
    (hNodes : buildNodes bundles looseTxs = buildNodes bundles' looseTxs') :
    schedule heap workerCount bundles looseTxs = schedule heap workerCount bundles' looseTxs' := by
  have hEmpty : ∀ (bs : List Bundle) (txs : List Transaction),
      (bs.isEmpty && txs.isEmpty) = (buildNodes bs txs).isEmpty := by
    intro bs txs
    cases bs <;> cases txs <;> rfl
  unfold schedule buildPriorityGraph
  rw [hEmpty, hEmpty, hNodes]

/-- Every unit is emitted, in some order, and gets one assignment. -/
theorem schedule_spec (heap : BinaryHeap) (hCount : 0 < workerCount) (bundles : List Bundle)
    (looseTxs : List Transaction) :
    ∃ assignments, schedule heap workerCount bundles looseTxs = .ok assignments ∧
      Assigns workerCount (batchUnits bundles looseTxs) assignments := by
  unfold schedule
  split
  · rename_i hEmpty
    rw [Bool.and_eq_true, List.isEmpty_iff, List.isEmpty_iff] at hEmpty
    obtain ⟨rfl, rfl⟩ := hEmpty
    exact ⟨[], rfl, [], List.Perm.nil, List.Forall₂.nil⟩
  · let nodes := buildNodes bundles looseTxs
    obtain ⟨sorted, hSort, hPerm⟩ := topologicalSort_buildAdjList heap nodes
    obtain ⟨assignments, hAssign, hAll⟩ := assignFrom_spec hCount (WorkerTables.new workerCount)
      (sorted.map fun i => nodes[i])
    have hNodes : (sorted.map fun i => nodes[i]).Perm
        ((batchUnits bundles looseTxs).map unitNode) := by
      rw [← buildNodes_eq]
      exact map_getElem_perm hPerm
    obtain ⟨order, hUnits, hMap⟩ := exists_order_of_nodes hNodes
    rw [hMap, List.forall₂_map_left_iff] at hAll
    refine ⟨assignments, ?_, order, hUnits, ?_⟩
    · simp only [buildPriorityGraph]
      rw [hSort]
      exact hAssign
    · simpa only [unitNode_assignment] using hAll

end PrioGraphScheduler

end Blunder
