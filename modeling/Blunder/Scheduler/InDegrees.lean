import Blunder.Scheduler.PrioGraph

/-!
# The in-degrees as machine integers

`SortState` counts edges with natural numbers, as the lengths of lists are counted
everywhere. `vec![0; n]` has no other type than `Vec<i32>`; here is the loop over counters of
this width, whose operations wrap.

* `topologicalSortI32_eq`: both loops return the same as long as a counter holds the number
  of edges into its node, fewer than `2 ^ 31`.
* `topologicalSortI32_buildAdjList`: so they do on the conflict graph of at most `2 ^ 31`
  nodes, where fewer edges enter a node than there are nodes.
* `topologicalSort_exact`: which nodes both of them emit, and in which order.
-/

namespace Blunder

open Foundation

namespace PrioGraphScheduler

/-! ## The loop -/

/-- The local variables of `topological_sort`, with the counters of the source. -/
structure SortStateI32 (heap : BinaryHeap) (n : ℕ) where
  inDegree : Fin n → Int32
  heap : (heap n).Heap
  sorted : List (Fin n)

section TopologicalSort

variable (heap : BinaryHeap) (nodes : List Node)

def countInDegreesI32 {n : ℕ} (adjList : AdjList n) : Fin n → Int32 :=
  ((List.finRange n).flatMap adjList).foldl
    (fun inDegree neighbor => Function.update inDegree neighbor (inDegree neighbor + 1)) fun _ => 0

def SortStateI32.start (adjList : AdjList nodes.length) : SortStateI32 heap nodes.length where
  inDegree := countInDegreesI32 adjList
  heap := (List.finRange nodes.length).foldl
    (fun h i => if countInDegreesI32 adjList i = 0 then pushNode heap nodes h i else h)
    (heap nodes.length).empty
  sorted := []

/-- A decrement at zero goes on with `-1`. -/
def visitNeighborI32 (s : SortStateI32 heap nodes.length) (neighbor : Fin nodes.length) :
    SortStateI32 heap nodes.length :=
  { s with
    inDegree := Function.update s.inDegree neighbor (s.inDegree neighbor - 1)
    heap := if s.inDegree neighbor - 1 = 0 then pushNode heap nodes s.heap neighbor else s.heap }

def drainI32 (adjList : AdjList nodes.length) :
    ℕ → SortStateI32 heap nodes.length → Except Panic (List (Fin nodes.length))
  | 0, s =>
    match (heap nodes.length).pop s.heap with
    | none => .ok s.sorted
    | some _ => .error .unfinished
  | fuel + 1, s =>
    match (heap nodes.length).pop s.heap with
    | none => .ok s.sorted
    | some (node, h) =>
      drainI32 adjList fuel ((adjList node.index).foldl (visitNeighborI32 heap nodes)
        { s with heap := h, sorted := s.sorted ++ [node.index] })

def topologicalSortI32 (adjList : AdjList nodes.length) :
    Except Panic (List (Fin nodes.length)) :=
  drainI32 heap nodes adjList nodes.length (SortStateI32.start heap nodes adjList)

end TopologicalSort

/-- The counters of the source for natural ones. -/
def SortState.toI32 {heap : BinaryHeap} {n : ℕ} (s : SortState heap n) : SortStateI32 heap n :=
  ⟨fun v => Int32.ofNat (s.inDegree v), s.heap, s.sorted⟩

/-- No counter is above the largest `i32`. -/
def Fits {n : ℕ} (inDegree : Fin n → ℕ) : Prop := ∀ v, inDegree v < 2 ^ 31

theorem Fits.update {n : ℕ} {inDegree : Fin n → ℕ} (h : Fits inDegree) (u : Fin n) {k : ℕ}
    (hk : k < 2 ^ 31) : Fits (Function.update inDegree u k) := by
  intro v
  by_cases hv : v = u
  · rw [hv, Function.update_self]
    exact hk
  · rw [Function.update_of_ne hv]
    exact h v

/-! ## Both loops take the same steps -/

theorem ofNat_eq_zero_iff {k : ℕ} (hk : k < 2 ^ 31) : Int32.ofNat k = 0 ↔ k = 0 := by
  constructor
  · intro hZero
    have hInt := congrArg Int32.toInt hZero
    rw [Int32.toInt_ofNat_of_lt hk, Int32.toInt_zero] at hInt
    omega
  · intro hZero
    rw [hZero]
    rfl

theorem ofNat_update {n : ℕ} (inDegree : Fin n → ℕ) (u : Fin n) (k : ℕ) :
    (fun v => Int32.ofNat (Function.update inDegree u k v)) =
      Function.update (fun v => Int32.ofNat (inDegree v)) u (Int32.ofNat k) := by
  funext v
  exact Function.apply_update (fun _ => Int32.ofNat) inDegree u k v

theorem countInDegreesI32_eq {n : ℕ} (adjList : AdjList n) :
    countInDegreesI32 adjList = fun v => Int32.ofNat (countInDegrees adjList v) := by
  have hFold : ∀ (neighbors : List (Fin n)) (inDegree : Fin n → ℕ),
      neighbors.foldl (fun inDegree neighbor =>
          Function.update inDegree neighbor (inDegree neighbor + 1))
          (fun v => Int32.ofNat (inDegree v)) =
        fun v => Int32.ofNat (neighbors.foldl (fun inDegree neighbor =>
          Function.update inDegree neighbor (inDegree neighbor + 1)) inDegree v) := by
    intro neighbors
    induction neighbors with
    | nil => exact fun _ => rfl
    | cons u neighbors ih =>
      intro inDegree
      rw [List.foldl_cons, List.foldl_cons, ← ih, ofNat_update, Int32.ofNat_add]
      rfl
  exact hFold _ fun _ => 0

section TopologicalSort

variable {heap : BinaryHeap} {nodes : List Node} {adjList : AdjList nodes.length}
  {s s' : SortState heap nodes.length} {neighbor : Fin nodes.length}

theorem start_toI32 (hFits : Fits (countInDegrees adjList)) :
    SortStateI32.start heap nodes adjList = (SortState.start heap nodes adjList).toI32 := by
  rw [SortStateI32.start, SortState.start, SortState.toI32, countInDegreesI32_eq]
  simp only [ofNat_eq_zero_iff (hFits _)]

/-- A decrement that is no error lowers the counter of the source by one, too. -/
theorem visitNeighbor_toI32 (hFits : Fits s.inDegree)
    (hVisit : visitNeighbor heap nodes s neighbor = .ok s') :
    visitNeighborI32 heap nodes s.toI32 neighbor = s'.toI32 ∧ Fits s'.inDegree := by
  rw [visitNeighbor] at hVisit
  split at hVisit
  · cases hVisit
  · rename_i hPos
    cases hVisit
    have hSub : Int32.ofNat (s.inDegree neighbor) - 1 = Int32.ofNat (s.inDegree neighbor - 1) := by
      rw [Int32.ofNat_sub _ _ (Nat.one_le_iff_ne_zero.mpr hPos)]
      rfl
    have hLess : s.inDegree neighbor - 1 < 2 ^ 31 := Nat.lt_of_le_of_lt (Nat.sub_le _ _) (hFits _)
    constructor
    · rw [visitNeighborI32, SortState.toI32, SortState.toI32, ofNat_update, hSub]
      simp only [ofNat_eq_zero_iff hLess]
    · exact hFits.update neighbor hLess

theorem visitAll_toI32 {neighbors : List (Fin nodes.length)} (hFits : Fits s.inDegree)
    (hVisit : neighbors.foldlM (visitNeighbor heap nodes) s = .ok s') :
    neighbors.foldl (visitNeighborI32 heap nodes) s.toI32 = s'.toI32 ∧ Fits s'.inDegree := by
  induction neighbors generalizing s with
  | nil =>
    cases hVisit
    exact ⟨rfl, hFits⟩
  | cons neighbor neighbors ih =>
    rw [List.foldlM_cons] at hVisit
    cases hFirst : visitNeighbor heap nodes s neighbor with
    | error panic =>
      rw [hFirst] at hVisit
      cases hVisit
    | ok mid =>
      rw [hFirst] at hVisit
      obtain ⟨hMid, hMidFits⟩ := visitNeighbor_toI32 hFits hFirst
      rw [List.foldl_cons, hMid]
      exact ih hMidFits hVisit

/-- Where the loop over natural counters returns, that of the source returns the same. -/
theorem drain_toI32 {fuel : ℕ} {sorted : List (Fin nodes.length)} (hFits : Fits s.inDegree)
    (hDrain : drain heap nodes adjList fuel s = .ok sorted) :
    drainI32 heap nodes adjList fuel s.toI32 = .ok sorted := by
  induction fuel generalizing s with
  | zero =>
    rw [drain] at hDrain
    rw [drainI32]
    exact hDrain
  | succ fuel ih =>
    rw [drain] at hDrain
    rw [drainI32]
    have hHeap : s.toI32.heap = s.heap := rfl
    rw [hHeap]
    cases hPop : (heap nodes.length).pop s.heap with
    | none =>
      rw [hPop] at hDrain
      exact hDrain
    | some popped =>
      obtain ⟨node, h⟩ := popped
      simp only [hPop] at hDrain
      cases hVisit : (adjList node.index).foldlM (visitNeighbor heap nodes)
          { s with heap := h, sorted := s.sorted ++ [node.index] } with
      | error panic =>
        rw [hVisit] at hDrain
        cases hDrain
      | ok s' =>
        rw [hVisit] at hDrain
        obtain ⟨hSame, hFits'⟩ := visitAll_toI32
          (s := { s with heap := h, sorted := s.sorted ++ [node.index] }) hFits hVisit
        have hRest := ih hFits' hDrain
        rw [← hSame] at hRest
        exact hRest

end TopologicalSort

/-! ## The edges into a node of the conflict graph -/

section ConflictGraph

variable {nodes : List Node}

theorem count_push {n : ℕ} (adjList : AdjList n) (i j u v : Fin n) :
    (adjList.push i j u).count v = (adjList u).count v + [(i, j)].count (u, v) := by
  by_cases hu : u = i
  · subst hu
    rw [AdjList.push, Function.update_self, List.count_append]
    simp [List.count_singleton]
  · rw [AdjList.push, Function.update_of_ne hu]
    simp [Ne.symm hu]

/-- A pair of nodes gives one edge at most, in one of the directions. -/
theorem count_addEdge_le (adjList : AdjList nodes.length) (i j u v : Fin nodes.length) :
    (addEdge nodes adjList i j u).count v ≤
      (adjList u).count v + [(i, j)].count (u, v) + [(j, i)].count (u, v) := by
  unfold addEdge
  split
  · omega
  · split
    · rw [count_push]
      omega
    · split
      · rw [count_push]
        omega
      · rw [count_push]
        omega

theorem count_foldl_addEdge_le (pairs : List (Fin nodes.length × Fin nodes.length))
    (adjList : AdjList nodes.length) (u v : Fin nodes.length) :
    (pairs.foldl (fun adjList ij => addEdge nodes adjList ij.1 ij.2) adjList u).count v ≤
      (adjList u).count v + pairs.count (u, v) + pairs.count (v, u) := by
  induction pairs generalizing adjList with
  | nil => exact Nat.le_refl _
  | cons ij pairs ih =>
    obtain ⟨i, j⟩ := ij
    have hRest := ih (addEdge nodes adjList i j)
    have hFirst := count_addEdge_le adjList i j u v
    have hSwap : [(j, i)].count (u, v) = [(i, j)].count (v, u) := by
      simp [List.count_singleton, and_comm]
    have hCons : ∀ pair, ((i, j) :: pairs).count pair = [(i, j)].count pair + pairs.count pair := by
      intro pair
      rw [← List.singleton_append, List.count_append]
    rw [List.foldl_cons, hCons, hCons]
    dsimp only
    omega

theorem nodup_indexPairs (n : ℕ) : (indexPairs n).Nodup := by
  rw [indexPairs, List.nodup_flatMap]
  constructor
  · intro i _
    refine List.Nodup.map ?_ ((List.nodup_finRange n).filter _)
    intro j j' hPair
    exact (Prod.mk.inj hPair).2
  · refine (List.nodup_finRange n).imp ?_
    intro i i' hne pair hPair hPair'
    obtain ⟨j, -, rfl⟩ := List.mem_map.mp hPair
    obtain ⟨j', -, hSame⟩ := List.mem_map.mp hPair'
    exact hne (Prod.mk.inj hSame).1.symm

theorem count_buildAdjList_le (u v : Fin nodes.length) : (buildAdjList nodes u).count v ≤ 1 := by
  have hCount := count_foldl_addEdge_le (indexPairs nodes.length) (fun _ => []) u v
  have hForth := List.nodup_iff_count_le_one.mp (nodup_indexPairs nodes.length) (u, v)
  have hBack := List.nodup_iff_count_le_one.mp (nodup_indexPairs nodes.length) (v, u)
  -- One of the two pairs is not in ascending order.
  have hOne : (indexPairs nodes.length).count (u, v) = 0 ∨
      (indexPairs nodes.length).count (v, u) = 0 := by
    rw [List.count_eq_zero, List.count_eq_zero, mem_indexPairs, mem_indexPairs, ← not_and_or]
    intro hBoth
    exact lt_asymm hBoth.1 hBoth.2
  rw [List.count_nil] at hCount
  rw [buildAdjList]
  omega

/-- Every other node has at most one edge into `v`. -/
theorem edgesInto_buildAdjList_lt (v : Fin nodes.length) :
    Kahn.edgesInto (buildAdjList nodes) Finset.univ v < nodes.length := by
  have hSelf : (buildAdjList nodes v).count v = 0 := by
    rw [List.count_eq_zero, mem_buildAdjList]
    intro hEdge
    exact Before.irrefl v hEdge.2
  have hOthers := Finset.sum_le_card_nsmul (Finset.univ.erase v)
    (fun u => (buildAdjList nodes u).count v) 1 fun u _ => count_buildAdjList_le u v
  rw [Finset.card_erase_of_mem (Finset.mem_univ v), Finset.card_fin, smul_eq_mul, mul_one] at hOthers
  have hSplit := Finset.add_sum_erase Finset.univ (fun u => (buildAdjList nodes u).count v)
    (Finset.mem_univ v)
  have hv := v.isLt
  rw [Kahn.edgesInto]
  omega

end ConflictGraph

/-! ## Main results -/

/-- With fewer than `2 ^ 31` edges into each node no counter of the source overflows. -/
theorem topologicalSortI32_eq (heap : BinaryHeap) {nodes : List Node}
    {adjList : AdjList nodes.length} (hFits : Fits (Kahn.edgesInto adjList Finset.univ)) :
    topologicalSortI32 heap nodes adjList = topologicalSort heap nodes adjList := by
  have hCounts : Fits (countInDegrees adjList) := by
    intro v
    rw [countInDegrees_eq]
    exact hFits v
  obtain ⟨sorted, inDegree, hSort, -⟩ := topologicalSort_spec heap nodes adjList
  rw [hSort, topologicalSortI32, start_toI32 hCounts]
  exact drain_toI32 hCounts hSort

/-- On the conflict graph of at most `2 ^ 31` nodes the counters are exact. -/
theorem topologicalSortI32_buildAdjList (heap : BinaryHeap) {nodes : List Node}
    (hSize : nodes.length ≤ 2 ^ 31) :
    topologicalSortI32 heap nodes (buildAdjList nodes) =
      topologicalSort heap nodes (buildAdjList nodes) := by
  apply topologicalSortI32_eq
  intro v
  exact Nat.lt_of_lt_of_le (edgesInto_buildAdjList_lt v) hSize

/-- On any graph, cyclic or not, Kahn's loop ends without lowering an in-degree below zero;
it emits the nodes that no cycle leads to, once each and after all their predecessors. The
loop with the counters of the source returns the same as long as fewer than `2 ^ 31` edges
enter each node. -/
theorem topologicalSort_exact (heap : BinaryHeap) (nodes : List Node)
    (adjList : AdjList nodes.length) :
    let edge : Fin nodes.length → Fin nodes.length → Prop := fun u v => v ∈ adjList u
    ∃ sorted, topologicalSort heap nodes adjList = .ok sorted ∧ sorted.Nodup ∧
      (∀ pre v post, sorted = pre ++ v :: post → ∀ u, edge u v → u ∈ pre) ∧
      (∀ v, v ∈ sorted ↔
        ¬ ∃ c, Relation.TransGen edge c c ∧ Relation.ReflTransGen edge c v) ∧
      ((∀ v, Kahn.edgesInto adjList Finset.univ v < 2 ^ 31) →
        topologicalSortI32 heap nodes adjList = .ok sorted) := by
  intro edge
  obtain ⟨sorted, hSort, hNodup, hOrder, hEmitted⟩ := topologicalSort_emits heap nodes adjList
  refine ⟨sorted, hSort, hNodup, hOrder, hEmitted, ?_⟩
  intro hFits
  exact (topologicalSortI32_eq heap hFits).trans hSort

end PrioGraphScheduler

end Blunder
