import Mathlib.Algebra.BigOperators.Group.List.Basic
import Mathlib.Algebra.BigOperators.Group.Finset.Piecewise
import Mathlib.Algebra.Order.BigOperators.Group.Finset
import Mathlib.Algebra.Order.BigOperators.Group.List
import Mathlib.Algebra.Order.Ring.Nat
import Mathlib.Data.Finset.Disjoint
import Mathlib.Data.Fintype.Card
import Mathlib.Data.List.FinRange
import Mathlib.Data.List.MinMax

/-!
# List scheduling with shared resources

Items are dealt one after another to `n` machines. An item goes to a least loaded one of
the machines that hold no item with a common resource, and when every machine holds one,
to a least loaded machine of all. `Follows` says this of a placement; `deal` is the
procedure, with the first of several least loaded machines.

* `deal_follows`: the procedure follows the rule.
* `Follows.pairwise`: an item that shares resources with fewer than `n` earlier ones finds
  a free machine, so then no machine holds two items with a common resource.
* `Follows.load_le`: without common resources two loads differ by at most one weight.
* `sum_load`, `map_fst_deal`: the loads of what is dealt are together the weights of all items.
-/

namespace Foundation.ListScheduling

variable {ι ρ : Type} {n : ℕ}

/-- The items and the machine of each, in the order in which they were dealt. -/
abbrev Placement (ι : Type) (n : ℕ) := List (ι × Fin n)

/-! ## Loads -/

section Load

variable (weight : ι → ℕ)

/-- The weights of the items on a machine. -/
def load (p : Placement ι n) (v : Fin n) : ℕ :=
  ((p.filter fun e => e.2 = v).map fun e => weight e.1).sum

@[simp] theorem load_nil (v : Fin n) : load weight ([] : Placement ι n) v = 0 := rfl

theorem load_append (p q : Placement ι n) (v : Fin n) :
    load weight (p ++ q) v = load weight p v + load weight q v := by
  simp [load]

theorem load_concat (p : Placement ι n) (x : ι) (w : Fin n) :
    load weight (p ++ [(x, w)]) =
      Function.update (load weight p) w (load weight p w + weight x) := by
  funext v
  rw [load_append]
  by_cases hv : v = w
  · subst hv
    simp [load]
  · simp [load, hv, Ne.symm hv]

theorem load_mono {p q : Placement ι n} (h : p <+: q) (v : Fin n) :
    load weight p v ≤ load weight q v := by
  obtain ⟨rest, rfl⟩ := h
  rw [load_append]
  exact Nat.le_add_right _ _

theorem load_cons (e : ι × Fin n) (p : Placement ι n) (v : Fin n) :
    load weight (e :: p) v = (if e.2 = v then weight e.1 else 0) + load weight p v := by
  by_cases hv : e.2 = v
  · simp [load, hv]
  · simp [load, hv]

/-- Every item adds to one load. -/
theorem sum_load (p : Placement ι n) :
    ∑ v, load weight p v = (p.map fun e => weight e.1).sum := by
  induction p with
  | nil => exact Finset.sum_eq_zero fun v _ => rfl
  | cons e p ih =>
    simp only [load_cons, Finset.sum_add_distrib, Finset.sum_ite_eq, Finset.mem_univ, if_true]
    rw [ih, List.map_cons, List.sum_cons]

theorem load_le_sum (p : Placement ι n) (v : Fin n) :
    load weight p v ≤ (p.map fun e => weight e.1).sum := by
  rw [← sum_load]
  exact Finset.single_le_sum (fun u _ => Nat.zero_le _) (Finset.mem_univ v)

end Load

/-! ## The rule -/

section Rule

variable (res : ι → Finset ρ) (weight : ι → ℕ)

/-- No item on the machine shares a resource with `x`. -/
def Free (p : Placement ι n) (x : ι) (v : Fin n) : Prop :=
  ∀ e ∈ p, e.2 = v → Disjoint (res x) (res e.1)

instance [DecidableEq ρ] (p : Placement ι n) (x : ι) (v : Fin n) : Decidable (Free res p x v) :=
  inferInstanceAs (Decidable (∀ e ∈ p, e.2 = v → Disjoint (res x) (res e.1)))

/-- The machines that are free for `x`, or all if none is. -/
def Candidate (p : Placement ι n) (x : ι) (v : Fin n) : Prop :=
  Free res p x v ∨ ∀ u, ¬ Free res p x u

/-- Machine `w` is a least loaded candidate for `x`. -/
structure Picks (p : Placement ι n) (x : ι) (w : Fin n) : Prop where
  candidate : Candidate res p x w
  least : ∀ v, Candidate res p x v → load weight p w ≤ load weight p v

/-- Every item was put on a least loaded candidate of its time. -/
def Follows (p : Placement ι n) : Prop :=
  ∀ pre x w post, p = pre ++ (x, w) :: post → Picks res weight pre x w

variable {res weight} {p : Placement ι n} {x : ι} {w : Fin n}

theorem Picks.not_free (h : Picks res weight p x w) (hBusy : ¬ Free res p x w) (v : Fin n) :
    ¬ Free res p x v :=
  h.candidate.resolve_left hBusy v

theorem Follows.nil : Follows res weight ([] : Placement ι n) := by
  intro pre x w post h
  simp at h

theorem Follows.initial {q : Placement ι n} (h : Follows res weight q) (hPrefix : p <+: q) :
    Follows res weight p := by
  obtain ⟨rest, rfl⟩ := hPrefix
  intro pre x w post hSplit
  refine h pre x w (post ++ rest) ?_
  rw [hSplit, List.append_assoc, List.cons_append]

theorem Follows.last (h : Follows res weight (p ++ [(x, w)])) : Picks res weight p x w :=
  h p x w [] rfl

theorem Follows.concat (h : Follows res weight p) (hPick : Picks res weight p x w) :
    Follows res weight (p ++ [(x, w)]) := by
  intro pre y u post hSplit
  rcases List.eq_nil_or_concat post with rfl | ⟨post, e, rfl⟩
  · obtain ⟨rfl, hLast⟩ := List.append_inj' hSplit rfl
    cases hLast
    exact hPick
  · have hSplit' : p ++ [(x, w)] = (pre ++ (y, u) :: post) ++ [e] := by
      rw [hSplit, List.concat_eq_append, List.append_assoc, List.cons_append]
    exact h pre y u post (List.append_inj' hSplit' rfl).1

/-- If no machine is free for `x`, each holds an item that `x` shares a resource with. -/
theorem exists_free [DecidableEq ρ]
    (hFew : p.countP (fun e => ¬ Disjoint (res x) (res e.1)) < n) : ∃ v, Free res p x v := by
  by_contra hNone
  push Not at hNone
  let busy := (p.filter fun e => ¬ Disjoint (res x) (res e.1)).map Prod.snd
  have hAll : (Finset.univ : Finset (Fin n)) ⊆ busy.toFinset := by
    intro v _
    have hBusy := hNone v
    unfold Free at hBusy
    push Not at hBusy
    obtain ⟨e, he, hMachine, hShare⟩ := hBusy
    rw [List.mem_toFinset]
    refine List.mem_map.mpr ⟨e, List.mem_filter.mpr ⟨he, ?_⟩, hMachine⟩
    exact decide_eq_true hShare
  have hCard := (Finset.card_le_card hAll).trans (List.toFinset_card_le busy)
  rw [Finset.card_univ, Fintype.card_fin, List.length_map, ← List.countP_eq_length_filter] at hCard
  omega

/-- No two items on one machine share a resource. -/
def Apart (res : ι → Finset ρ) (p : Placement ι n) : Prop :=
  p.Pairwise fun e f => e.2 = f.2 → Disjoint (res e.1) (res f.1)

/-- An item that finds a free machine keeps the items apart. -/
theorem Apart.concat (h : Apart res p) (hFree : Free res p x w) : Apart res (p ++ [(x, w)]) := by
  refine List.pairwise_append.mpr ⟨h, List.pairwise_singleton _ _, ?_⟩
  intro e he f hf hMachine
  rw [List.mem_singleton.mp hf] at hMachine ⊢
  exact (hFree e he hMachine).symm

/-- Items that were all put on machines that were free for them. -/
theorem Apart.of_free (h : ∀ pre x w post, p = pre ++ (x, w) :: post → Free res pre x w) :
    Apart res p := by
  induction p using List.reverseRecOn with
  | nil => exact List.Pairwise.nil
  | append_singleton p e ih =>
    obtain ⟨x, w⟩ := e
    apply Apart.concat
    · apply ih
      intro pre y u post hSplit
      exact h pre y u (post ++ [(x, w)]) (by rw [hSplit, List.append_assoc, List.cons_append])
    · exact h p x w [] rfl

/-- Items with few earlier conflicts never meet an item they conflict with. -/
theorem Follows.pairwise [DecidableEq ρ] (h : Follows res weight p)
    (hFew : ∀ pre x w post, p = pre ++ (x, w) :: post →
      pre.countP (fun e => ¬ Disjoint (res x) (res e.1)) < n) :
    p.Pairwise fun e f => e.2 = f.2 → Disjoint (res e.1) (res f.1) := by
  apply Apart.of_free
  intro pre x w post hSplit
  by_contra hBusy
  obtain ⟨v, hv⟩ := exists_free (hFew pre x w post hSplit)
  exact (h pre x w post hSplit).not_free hBusy v hv

/-- Without common resources every machine is a candidate at every time. -/
theorem Follows.load_le (h : Follows res weight p) {bound : ℕ}
    (hBound : ∀ e ∈ p, weight e.1 ≤ bound)
    (hDisjoint : p.Pairwise fun e f => Disjoint (res e.1) (res f.1)) (v w : Fin n) :
    load weight p v ≤ load weight p w + bound := by
  induction p using List.reverseRecOn with
  | nil => exact Nat.zero_le _
  | append_singleton p e ih =>
    obtain ⟨x, u⟩ := e
    obtain ⟨hRest, -, hLast⟩ := List.pairwise_append.mp hDisjoint
    have hBefore := ih (h.initial (List.prefix_append _ _))
      (fun e he => hBound e (List.mem_append_left _ he)) hRest
    have hWeight : weight x ≤ bound :=
      hBound (x, u) (List.mem_append_right _ (List.mem_singleton_self _))
    have hFree : Free res p x w := fun e he _ =>
      (hLast e he (x, u) (List.mem_singleton_self _)).symm
    have hLeast := h.last.least w (Or.inl hFree)
    have hGrow := load_mono weight (List.prefix_append p [(x, u)]) w
    by_cases hv : v = u
    · subst hv
      have hNew : load weight (p ++ [(x, v)]) v = load weight p v + weight x := by
        rw [load_concat, Function.update_self]
      omega
    · have hOld : load weight (p ++ [(x, u)]) v = load weight p v := by
        rw [load_concat, Function.update_of_ne hv]
      omega

end Rule

/-! ## The procedure -/

section Deal

variable [DecidableEq ρ] (res : ι → Finset ρ) (weight : ι → ℕ)

def candidates (p : Placement ι n) (x : ι) : List (Fin n) :=
  let free := (List.finRange n).filter fun v => decide (Free res p x v)
  if free ≠ [] then free else List.finRange n

/-- The first of the least loaded candidates, if there are machines at all. -/
def pick (p : Placement ι n) (x : ι) : Option (Fin n) :=
  (candidates res p x).argmin (load weight p)

/-- Deals the items on top of a placement. -/
def deal (p : Placement ι n) : List ι → Placement ι n
  | [] => p
  | x :: items =>
    match pick res weight p x with
    | none => deal p items
    | some w => deal (p ++ [(x, w)]) items

variable {res weight} {p : Placement ι n} {x : ι} {w : Fin n}

theorem mem_candidates {v : Fin n} : v ∈ candidates res p x ↔ Candidate res p x v := by
  simp only [candidates, Candidate]
  split
  · rename_i hSome
    obtain ⟨u, hu⟩ := List.exists_mem_of_ne_nil _ hSome
    have huFree : Free res p x u := of_decide_eq_true (List.mem_filter.mp hu).2
    rw [List.mem_filter, decide_eq_true_iff]
    constructor
    · exact fun h => Or.inl h.2
    · exact fun h => ⟨List.mem_finRange v, h.resolve_right fun hNone => hNone u huFree⟩
  · rename_i hNone
    rw [not_not] at hNone
    refine iff_of_true (List.mem_finRange v) (Or.inr fun u hu => ?_)
    have hMem : u ∈ (List.finRange n).filter fun v => decide (Free res p x v) :=
      List.mem_filter.mpr ⟨List.mem_finRange u, decide_eq_true hu⟩
    rw [hNone] at hMem
    exact List.not_mem_nil hMem

theorem picks_of_pick (h : pick res weight p x = some w) : Picks res weight p x w where
  candidate := mem_candidates.mp (List.argmin_mem h)
  least _ hv := List.le_of_mem_argmin (mem_candidates.mpr hv) h

theorem exists_pick (hn : 0 < n) (p : Placement ι n) (x : ι) :
    ∃ w, pick res weight p x = some w := by
  apply Option.ne_none_iff_exists'.mp
  rw [pick, Ne, List.argmin_eq_none, candidates]
  split
  · assumption
  · exact List.ne_nil_of_mem (List.mem_finRange ⟨0, hn⟩)

/-- All items are dealt, in their order. -/
theorem map_fst_deal (hn : 0 < n) (p : Placement ι n) (items : List ι) :
    (deal res weight p items).map Prod.fst = p.map Prod.fst ++ items := by
  induction items generalizing p with
  | nil => exact (List.append_nil _).symm
  | cons x items ih =>
    obtain ⟨w, hw⟩ : ∃ w, pick res weight p x = some w := exists_pick hn p x
    rw [deal, hw]
    dsimp only
    rw [ih, List.map_append, List.append_assoc]
    rfl

theorem deal_follows (items : List ι) (h : Follows res weight p) :
    Follows res weight (deal res weight p items) := by
  induction items generalizing p with
  | nil => exact h
  | cons x items ih =>
    unfold deal
    cases hPick : pick res weight p x with
    | none => exact ih h
    | some w => exact ih (h.concat (picks_of_pick hPick))

theorem prefix_deal (p : Placement ι n) (items : List ι) : p <+: deal res weight p items := by
  induction items generalizing p with
  | nil => exact List.prefix_refl p
  | cons x items ih =>
    unfold deal
    cases pick res weight p x with
    | none => exact ih p
    | some w => exact (List.prefix_append p _).trans (ih _)

end Deal

end Foundation.ListScheduling
