import Mathlib.Algebra.BigOperators.Group.Finset.Basic
import Mathlib.Algebra.Order.BigOperators.Group.Finset
import Mathlib.Data.Fintype.Card
import Mathlib.Data.Fintype.EquivFin
import Mathlib.Logic.Function.Basic
import Mathlib.Logic.Relation

/-!
# Kahn's algorithm

The vertices of a finite directed graph are emitted one after another; a vertex is
ready once its in-degree, counted from the vertices not yet emitted, is zero. The
queue that holds the ready vertices may release them in any order.

* `FromCycle`, `acc_iff_not_fromCycle`: in a finite graph the way back from a vertex ends
  unless a cycle leads to it.
* `Leads`: an order that the emitted vertices keep among themselves and towards the rest.
* `PredecessorsFirst`: each vertex comes after all of its predecessors.
* `Progress`: what holds between the in-degrees, the queue and the emitted vertices,
  also in the middle of the loop over the successors of an emitted vertex.
* `Progress.emit`, `Progress.relax`: the two steps of the algorithm keep it.
* `Progress.blocked`: each vertex that is neither emitted nor ready has a predecessor that
  was not emitted either.
* `Progress.exists_ready_of_acc`, `Progress.exists_ready`: if the way back from a vertex that
  was not emitted ends, a ready one leads to it.
* `Progress.all_emitted`: then, once the queue is empty, every vertex was emitted.
* `Progress.mem_emitted_iff`: once the queue is empty, the emitted vertices are those that
  no cycle leads to.
-/

namespace Foundation.Kahn

/-! ## Cycles -/

section Cycles

variable {V : Type*} {E : V → V → Prop} {u v : V}

/-- `v` is on a cycle or reached from one. -/
def FromCycle (E : V → V → Prop) (v : V) : Prop :=
  ∃ c, Relation.TransGen E c c ∧ Relation.ReflTransGen E c v

theorem FromCycle.tail (h : FromCycle E u) (huv : E u v) : FromCycle E v := by
  obtain ⟨c, hCycle, hPath⟩ := h
  exact ⟨c, hCycle, hPath.tail huv⟩

/-- The way back from `v` never has to end: on the cycle it goes round. -/
theorem FromCycle.exists_predecessor (h : FromCycle E v) : ∃ u, E u v ∧ FromCycle E u := by
  obtain ⟨c, hCycle, hPath⟩ := h
  rcases hPath.cases_tail with rfl | ⟨u, hcu, huv⟩
  · obtain ⟨u, hcu, huv⟩ := Relation.TransGen.tail'_iff.mp hCycle
    exact ⟨u, huv, _, hCycle, hcu⟩
  · exact ⟨u, huv, c, hCycle, hcu⟩

theorem not_fromCycle_of_acc (h : Acc E v) : ¬ FromCycle E v := by
  induction h with
  | intro v _ ih =>
    intro hv
    obtain ⟨u, huv, hu⟩ := hv.exists_predecessor
    exact ih u huv hu

/-- The edges into the vertices that no cycle leads to. -/
theorem wellFounded_notFromCycle [Finite V] (E : V → V → Prop) :
    WellFounded fun u v => E u v ∧ ¬ FromCycle E v := by
  have hIrrefl : Std.Irrefl (Relation.TransGen fun u v => E u v ∧ ¬ FromCycle E v) := by
    constructor
    intro c hCycle
    obtain ⟨u, -, -, hc⟩ := Relation.TransGen.tail'_iff.mp hCycle
    have hEdges : Relation.TransGen E c c :=
      Relation.TransGen.mono (fun _ _ h => h.1) c c hCycle
    exact hc ⟨c, hEdges, Relation.ReflTransGen.refl⟩
  have hTrans := Finite.wellFounded_of_trans_of_irrefl
    (Relation.TransGen fun u v => E u v ∧ ¬ FromCycle E v)
  refine Subrelation.wf ?_ hTrans
  intro u v h
  exact Relation.TransGen.single h

theorem acc_iff_not_fromCycle [Finite V] : Acc E v ↔ ¬ FromCycle E v := by
  constructor
  · exact not_fromCycle_of_acc
  · induction v using (wellFounded_notFromCycle E).induction with
    | _ v ih =>
      intro hv
      refine Acc.intro v fun u huv => ih u ⟨huv, hv⟩ ?_
      intro hu
      exact hv (hu.tail huv)

end Cycles

/-! ## Orders of the vertices -/

section Orders

variable {V : Type*}

/-- Each emitted vertex stands in `R` to those emitted after it and to the missing ones. -/
structure Leads (R : V → V → Prop) (emitted : List V) : Prop where
  pairwise : emitted.Pairwise R
  missing : ∀ u ∈ emitted, ∀ v, v ∉ emitted → R u v

namespace Leads

variable {R : V → V → Prop} {emitted : List V} {v : V}

theorem nil : Leads R [] where
  pairwise := List.Pairwise.nil
  missing _ hu := absurd hu List.not_mem_nil

/-- A missing vertex that stands in `R` to all others is emitted. -/
theorem emit (h : Leads R emitted) (hv : v ∉ emitted)
    (hNext : ∀ u, u ∉ emitted → u ≠ v → R v u) : Leads R (emitted ++ [v]) := by
  constructor
  · refine List.pairwise_append.mpr ⟨h.pairwise, List.pairwise_singleton _ _, ?_⟩
    intro u hu w hw
    rw [List.mem_singleton.mp hw]
    exact h.missing u hu v hv
  · intro u hu w hw
    rw [List.mem_append, List.mem_singleton, not_or] at hw
    rcases List.mem_append.mp hu with hu | hu
    · exact h.missing u hu w hw.1
    · rw [List.mem_singleton.mp hu]
      exact hNext w hw.1 hw.2

end Leads

/-- Each vertex of the list comes after all of its predecessors. -/
def PredecessorsFirst (E : V → V → Prop) (emitted : List V) : Prop :=
  ∀ pre v post, emitted = pre ++ v :: post → ∀ u, E u v → u ∈ pre

namespace PredecessorsFirst

variable {E : V → V → Prop} {emitted : List V} {v : V}

theorem nil : PredecessorsFirst E [] := by
  intro pre v post hSplit
  simp at hSplit

/-- A vertex whose predecessors were all emitted is emitted. -/
theorem emit (h : PredecessorsFirst E emitted) (hv : ∀ u, E u v → u ∈ emitted) :
    PredecessorsFirst E (emitted ++ [v]) := by
  intro pre w post hSplit u huw
  rcases List.eq_nil_or_concat' post with rfl | ⟨post, last, rfl⟩
  · obtain ⟨rfl, hw⟩ := List.append_inj' hSplit rfl
    cases hw
    exact hv u huw
  · rw [← List.cons_append, ← List.append_assoc] at hSplit
    exact h pre w post (List.append_inj' hSplit rfl).1 u huw

theorem acc_of_mem (h : PredecessorsFirst E emitted) (hv : v ∈ emitted) : Acc E v := by
  -- Strong induction on the number of vertices emitted before `v`.
  obtain ⟨pre, post, hSplit⟩ := List.append_of_mem hv
  induction hLength : pre.length using Nat.strong_induction_on generalizing v pre post with
  | _ k ih =>
    refine Acc.intro v fun u huv => ?_
    have hu := h pre v post hSplit u huv
    obtain ⟨pre', post', rfl⟩ := List.append_of_mem hu
    have hSplit' : emitted = pre' ++ u :: (post' ++ v :: post) := by
      rw [hSplit, List.append_assoc, List.cons_append]
    refine ih pre'.length ?_ ?_ pre' _ hSplit' rfl
    · rw [← hLength, List.length_append, List.length_cons]
      omega
    · rw [hSplit']
      exact List.mem_append_right _ List.mem_cons_self

end PredecessorsFirst

end Orders

/-! ## In-degrees and the queue -/

variable {V : Type*} [Fintype V] [DecidableEq V]

/-- The number of edges into `v` that start in `S`. -/
def edgesInto (adj : V → List V) (S : Finset V) (v : V) : ℕ := ∑ u ∈ S, (adj u).count v

/-- The vertices that are not in a list. -/
def missing (emitted : List V) : Finset V := Finset.univ.filter (· ∉ emitted)

@[simp] theorem mem_missing {emitted : List V} {v : V} : v ∈ missing emitted ↔ v ∉ emitted := by
  simp [missing]

/-- The in-degrees count the edges from missing vertices and the successors in `rest`
that have not been visited; the queue holds the missing vertices with in-degree zero. -/
structure Progress (adj : V → List V) (inDegree : V → ℕ) (queue : Multiset V)
    (emitted rest : List V) : Prop where
  emitted_nodup : emitted.Nodup
  queue_nodup : queue.Nodup
  degree : ∀ v, inDegree v = edgesInto adj (missing emitted) v + rest.count v
  mem_queue : ∀ v, v ∈ queue ↔ v ∉ emitted ∧ inDegree v = 0
  degree_emitted : ∀ v ∈ emitted, inDegree v = 0

namespace Progress

variable {adj : V → List V} {inDegree : V → ℕ} {queue : Multiset V} {emitted rest : List V} {v : V}

/-- At the start the in-degrees count all edges. -/
theorem start (hDegree : ∀ v, inDegree v = edgesInto adj Finset.univ v) (hNodup : queue.Nodup)
    (hQueue : ∀ v, v ∈ queue ↔ inDegree v = 0) : Progress adj inDegree queue [] [] := by
  refine ⟨List.nodup_nil, hNodup, ?_, ?_, ?_⟩
  · intro v
    simp [missing, hDegree v]
  · intro v
    simp [hQueue v]
  · intro v hv
    simp at hv

/-- A ready vertex leaves the queue, and its successors become the ones to visit. -/
theorem emit (h : Progress adj inDegree (v ::ₘ queue) emitted []) :
    Progress adj inDegree queue (emitted ++ [v]) (adj v) := by
  obtain ⟨hvQueue, hQueue⟩ := Multiset.nodup_cons.mp h.queue_nodup
  obtain ⟨hvEmitted, hvDegree⟩ := (h.mem_queue v).mp (Multiset.mem_cons_self v queue)
  have hMissing : missing emitted = insert v (missing (emitted ++ [v])) := by
    ext u
    by_cases hu : u = v
    · simp [hu, hvEmitted]
    · simp [hu]
  have hvMissing : v ∉ missing (emitted ++ [v]) := by simp
  refine ⟨?_, hQueue, ?_, ?_, ?_⟩
  · exact List.nodup_append.mpr ⟨h.emitted_nodup, List.nodup_singleton v, by
      rintro a ha b hb rfl
      exact hvEmitted (List.mem_singleton.mp hb ▸ ha)⟩
  · intro u
    rw [h.degree u, hMissing, edgesInto, Finset.sum_insert hvMissing, edgesInto, List.count_nil]
    omega
  · intro u
    have hu := h.mem_queue u
    rw [Multiset.mem_cons] at hu
    rw [List.mem_append, List.mem_singleton, not_or]
    constructor
    · intro huQueue
      obtain ⟨huEmitted, huDegree⟩ := hu.mp (Or.inr huQueue)
      refine ⟨⟨huEmitted, ?_⟩, huDegree⟩
      rintro rfl
      exact hvQueue huQueue
    · rintro ⟨⟨huEmitted, huv⟩, huDegree⟩
      exact (hu.mpr ⟨huEmitted, huDegree⟩).resolve_left huv
  · intro u hu
    rcases List.mem_append.mp hu with hu | hu
    · exact h.degree_emitted u hu
    · rw [List.mem_singleton.mp hu]
      exact hvDegree

/-- A successor still to be visited has a positive in-degree. -/
theorem degree_pos (h : Progress adj inDegree queue emitted (v :: rest)) : 1 ≤ inDegree v := by
  rw [h.degree v, List.count_cons_self]
  omega

/-- Visiting a successor lowers its in-degree; at zero it becomes ready. -/
theorem relax (h : Progress adj inDegree queue emitted (v :: rest)) :
    Progress adj (Function.update inDegree v (inDegree v - 1))
      (if inDegree v - 1 = 0 then v ::ₘ queue else queue) emitted rest := by
  have hPos := h.degree_pos
  have hvEmitted : v ∉ emitted := by
    intro hv
    rw [h.degree_emitted v hv] at hPos
    omega
  have hvQueue : v ∉ queue := by
    intro hv
    rw [((h.mem_queue v).mp hv).2] at hPos
    omega
  refine ⟨h.emitted_nodup, ?_, ?_, ?_, ?_⟩
  · split
    · exact Multiset.nodup_cons.mpr ⟨hvQueue, h.queue_nodup⟩
    · exact h.queue_nodup
  · intro u
    have hu := h.degree u
    by_cases huv : u = v
    · subst huv
      rw [List.count_cons_self] at hu
      rw [Function.update_self]
      omega
    · rw [List.count_cons_of_ne (Ne.symm huv)] at hu
      rw [Function.update_of_ne huv]
      exact hu
  · intro u
    by_cases huv : u = v
    · subst huv
      rw [Function.update_self]
      split
      · rename_i hZero
        simp [hZero, hvEmitted]
      · rename_i hZero
        simp [hZero, hvQueue]
    · rw [Function.update_of_ne huv, ← h.mem_queue u]
      split
      · simp [huv]
      · exact Iff.rfl
  · intro u hu
    have huv : u ≠ v := by
      rintro rfl
      exact hvEmitted hu
    rw [Function.update_of_ne huv]
    exact h.degree_emitted u hu

/-- Emitted and ready vertices are distinct vertices of the graph. -/
theorem card_le (h : Progress adj inDegree queue emitted rest) :
    emitted.length + queue.card ≤ Fintype.card V := by
  have hNodup : ((emitted : Multiset V) + queue).Nodup := by
    refine Multiset.nodup_add.mpr ⟨Multiset.coe_nodup.mpr h.emitted_nodup, h.queue_nodup, ?_⟩
    rw [Multiset.disjoint_left]
    intro u hu huQueue
    exact ((h.mem_queue u).mp huQueue).1 (Multiset.mem_coe.mp hu)
  have hCard := Finset.card_le_univ (⟨(emitted : Multiset V) + queue, hNodup⟩ : Finset V)
  rwa [Finset.card_mk, Multiset.card_add, Multiset.coe_card] at hCard

theorem blocked (h : Progress adj inDegree queue emitted []) (hvEmitted : v ∉ emitted)
    (hvQueue : v ∉ queue) : ∃ u, u ∉ emitted ∧ v ∈ adj u := by
  have hDegree : inDegree v ≠ 0 := by
    intro hZero
    exact hvQueue ((h.mem_queue v).mpr ⟨hvEmitted, hZero⟩)
  rw [h.degree v, List.count_nil, add_zero] at hDegree
  obtain ⟨u, hu, hCount⟩ := Finset.exists_ne_zero_of_sum_ne_zero hDegree
  exact ⟨u, mem_missing.mp hu, List.count_pos_iff.mp (Nat.pos_of_ne_zero hCount)⟩

/-- A ready vertex is no successor of a missing one. -/
theorem notMem_adj (h : Progress adj inDegree queue emitted []) (hv : v ∈ queue) {u : V}
    (hu : u ∉ emitted) : v ∉ adj u := by
  intro huv
  have hZero := ((h.mem_queue v).mp hv).2
  rw [h.degree v, List.count_nil, add_zero, edgesInto] at hZero
  have hCount := (Finset.sum_eq_zero_iff.mp hZero) u (mem_missing.mpr hu)
  exact List.count_eq_zero.mp hCount huv

/-- Going back along the edges from a missing vertex, a ready one is met. -/
theorem exists_ready_of_acc (h : Progress adj inDegree queue emitted [])
    (hAcc : Acc (fun a b => b ∈ adj a) v) (hvEmitted : v ∉ emitted) :
    ∃ u ∈ queue, Relation.ReflTransGen (fun a b => b ∈ adj a) u v := by
  induction hAcc with
  | intro v _ ih =>
    by_cases hvQueue : v ∈ queue
    · exact ⟨v, hvQueue, Relation.ReflTransGen.refl⟩
    · obtain ⟨u, huEmitted, huv⟩ := h.blocked hvEmitted hvQueue
      obtain ⟨r, hr, hPath⟩ := ih u huv huEmitted
      exact ⟨r, hr, hPath.tail huv⟩

section WellFounded

variable {before : V → V → Prop}

theorem exists_ready (h : Progress adj inDegree queue emitted [])
    (hWellFounded : WellFounded before) (hEdge : ∀ u v, v ∈ adj u → before u v) :
    ∀ v, v ∉ emitted → ∃ u ∈ queue, Relation.ReflTransGen (fun a b => b ∈ adj a) u v := by
  intro v hvEmitted
  have hAcc : Acc (fun a b => b ∈ adj a) v :=
    (Subrelation.wf (hEdge _ _) hWellFounded).apply v
  exact h.exists_ready_of_acc hAcc hvEmitted

theorem all_emitted (h : Progress adj inDegree 0 emitted [])
    (hWellFounded : WellFounded before) (hEdge : ∀ u v, v ∈ adj u → before u v) :
    ∀ v, v ∈ emitted := by
  intro v
  by_contra hMissing
  obtain ⟨u, hu, -⟩ := h.exists_ready hWellFounded hEdge v hMissing
  exact Multiset.notMem_zero u hu

end WellFounded

end Progress

/-! ## What is emitted -/

/-- Kahn's algorithm emits the vertices that no cycle leads to, and no others. -/
theorem Progress.mem_emitted_iff {adj : V → List V} {inDegree : V → ℕ} {emitted : List V} {v : V}
    (h : Progress adj inDegree 0 emitted [])
    (hFirst : PredecessorsFirst (fun u v => v ∈ adj u) emitted) :
    v ∈ emitted ↔ ¬ FromCycle (fun u v => v ∈ adj u) v := by
  constructor
  · intro hv
    exact not_fromCycle_of_acc (hFirst.acc_of_mem hv)
  · intro hv
    by_contra hMissing
    obtain ⟨u, hu, -⟩ := h.exists_ready_of_acc (acc_iff_not_fromCycle.mpr hv) hMissing
    exact Multiset.notMem_zero u hu

end Foundation.Kahn
