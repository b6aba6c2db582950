import Mathlib.Algebra.BigOperators.Group.Finset.Basic
import Mathlib.Algebra.BigOperators.Ring.Finset
import Mathlib.Algebra.Order.BigOperators.Group.Finset
import Mathlib.Data.Finset.Card

/-!
# Greedy packing

Items are scanned in a fixed order and an item is kept when its resources are free;
a kept item takes its resources.

* `select_pairwise`: the kept items own pairwise disjoint resources.
* `exists_blocker`: an item that is not kept shares a resource with an earlier kept
  one.
* `mem_select_of_earlier`: an item that is kept is also kept when it comes earlier.
* `sum_le_of_packing`: if the order is by decreasing weight and no item uses more
  than `k` resources, the kept items weigh at least `1 / k` of any family of items
  with pairwise disjoint resources. Each member of the family is charged to a kept
  item of at least its weight; at most `k` members are charged to the same one,
  because each of them uses up a resource of it.
-/

namespace Foundation.Packing

variable {ι α : Type*} [DecidableEq α] (res : ι → Finset α)

/-- The items kept by the scan when the resources in `locked` are already taken. -/
def select : Finset α → List ι → List ι
  | _, [] => []
  | locked, x :: xs =>
    if Disjoint (res x) locked then x :: select (locked ∪ res x) xs else select locked xs

variable {res} {locked : Finset α} {xs : List ι}

theorem select_sublist (locked : Finset α) (xs : List ι) :
    (select res locked xs).Sublist xs := by
  induction xs generalizing locked with
  | nil => exact List.Sublist.slnil
  | cons x xs ih =>
    unfold select
    split
    · exact (ih _).cons_cons x
    · exact (ih _).cons x

theorem disjoint_locked_of_mem_select {x : ι} (h : x ∈ select res locked xs) :
    Disjoint (res x) locked := by
  induction xs generalizing locked with
  | nil => simp [select] at h
  | cons y xs ih =>
    rw [select] at h
    split at h
    · rename_i hy
      rcases List.mem_cons.mp h with rfl | h
      · exact hy
      · exact (Finset.disjoint_union_right.mp (ih h)).1
    · exact ih h

theorem select_pairwise (locked : Finset α) (xs : List ι) :
    (select res locked xs).Pairwise fun x y => Disjoint (res x) (res y) := by
  induction xs generalizing locked with
  | nil => simp [select]
  | cons x xs ih =>
    unfold select
    split
    · refine List.pairwise_cons.mpr ⟨?_, ih _⟩
      intro y hy
      exact (Finset.disjoint_union_right.mp (disjoint_locked_of_mem_select hy)).2.symm
    · exact ih _

theorem select_map {κ : Type*} (f : κ → ι) (locked : Finset α) (xs : List κ) :
    select res locked (xs.map f) = (select (fun k => res (f k)) locked xs).map f := by
  induction xs generalizing locked with
  | nil => rfl
  | cons x xs ih =>
    rw [List.map_cons, select, select]
    split
    · rw [ih, List.map_cons]
    · exact ih _

/-! ## The resources taken by a part of the scan -/

variable (res) in
/-- The resources taken after the scan. -/
def taken : Finset α → List ι → Finset α
  | locked, [] => locked
  | locked, x :: xs =>
    if Disjoint (res x) locked then taken (locked ∪ res x) xs else taken locked xs

theorem subset_taken (locked : Finset α) (xs : List ι) : locked ⊆ taken res locked xs := by
  induction xs generalizing locked with
  | nil => exact subset_rfl
  | cons x xs ih =>
    rw [taken]
    split
    · exact Finset.subset_union_left.trans (ih _)
    · exact ih _

theorem taken_append (locked : Finset α) (xs ys : List ι) :
    taken res locked (xs ++ ys) = taken res (taken res locked xs) ys := by
  induction xs generalizing locked with
  | nil => rfl
  | cons x xs ih =>
    rw [List.cons_append, taken, taken]
    split <;> exact ih _

theorem select_append (locked : Finset α) (xs ys : List ι) :
    select res locked (xs ++ ys) =
      select res locked xs ++ select res (taken res locked xs) ys := by
  induction xs generalizing locked with
  | nil => rfl
  | cons x xs ih =>
    rw [List.cons_append, select, select, taken]
    split
    · rw [ih, List.cons_append]
    · exact ih _

/-- An item is kept exactly when its resources are free at its turn. -/
theorem mem_select_append_cons_iff {pre post : List ι} {x : ι} (hx : x ∉ pre) :
    x ∈ select res locked (pre ++ x :: post) ↔ Disjoint (res x) (taken res locked pre) := by
  rw [select_append, List.mem_append]
  constructor
  · rintro (h | h)
    · exact absurd ((select_sublist locked pre).subset h) hx
    · exact disjoint_locked_of_mem_select h
  · intro hFree
    right
    rw [select, if_pos hFree]
    exact List.mem_cons_self

theorem mem_select_of_earlier {pre mid post : List ι} {x : ι} (hx : x ∉ pre ++ mid)
    (h : x ∈ select res locked (pre ++ mid ++ x :: post)) :
    x ∈ select res locked (pre ++ x :: (mid ++ post)) := by
  have hFree := (mem_select_append_cons_iff hx).mp h
  have hx' : x ∉ pre := fun hMem => hx (List.mem_append_left _ hMem)
  apply (mem_select_append_cons_iff hx').mpr
  rw [taken_append] at hFree
  exact Finset.disjoint_of_subset_right (subset_taken _ mid) hFree

/-! ## Rejected items -/

/-- A rejected item meets the resources taken before the scan or those of a kept
item that the order puts before it. -/
theorem blocker_or_locked {before : ι → ι → Prop} (hxs : xs.Pairwise before) {x : ι}
    (hx : x ∈ xs) (hRejected : x ∉ select res locked xs) :
    ¬ Disjoint (res x) locked ∨
      ∃ y ∈ select res locked xs, before y x ∧ ¬ Disjoint (res y) (res x) := by
  induction xs generalizing locked with
  | nil => simp at hx
  | cons y xs ih =>
    obtain ⟨hy, hxs'⟩ := List.pairwise_cons.mp hxs
    rw [select] at hRejected ⊢
    split at hRejected
    · rename_i hFree
      rw [List.mem_cons, not_or] at hRejected
      have hx' : x ∈ xs := (List.mem_cons.mp hx).resolve_left hRejected.1
      rw [if_pos hFree]
      rcases ih hxs' hx' hRejected.2 with hLocked | ⟨z, hz, hBefore, hMeet⟩
      · rw [Finset.disjoint_union_right, not_and_or] at hLocked
        rcases hLocked with hLocked | hMeet
        · exact Or.inl hLocked
        · exact Or.inr ⟨y, List.mem_cons_self, hy x hx', fun h => hMeet h.symm⟩
      · exact Or.inr ⟨z, List.mem_cons_of_mem _ hz, hBefore, hMeet⟩
    · rename_i hMeet
      rw [if_neg hMeet]
      rcases List.mem_cons.mp hx with rfl | hx'
      · exact Or.inl hMeet
      · exact ih hxs' hx' hRejected

theorem exists_blocker {before : ι → ι → Prop} (hxs : xs.Pairwise before) {x : ι}
    (hx : x ∈ xs) (hRejected : x ∉ select res ∅ xs) :
    ∃ y ∈ select res ∅ xs, before y x ∧ ¬ Disjoint (res y) (res x) := by
  rcases blocker_or_locked hxs hx hRejected with h | h
  · exact absurd (Finset.disjoint_empty_right _) h
  · exact h

/-! ## Weights -/

section Charging

variable [DecidableEq ι] {weight : ι → ℕ} {k : ℕ} {S : Finset ι}

omit [DecidableEq α] in
/-- Members of a packing that all share a resource with `y` number at most the
resources of `y`: distinct members use distinct ones. -/
theorem card_le_of_meet (y : ι) (hS : ∀ a ∈ S, ∀ b ∈ S, a ≠ b → Disjoint (res a) (res b))
    (hMeet : ∀ a ∈ S, ¬ Disjoint (res a) (res y)) : S.card ≤ (res y).card := by
  have hShared : ∀ a ∈ S, ∃ r, r ∈ res a ∧ r ∈ res y := by
    intro a ha
    exact Finset.not_disjoint_iff.mp (hMeet a ha)
  rcases S.eq_empty_or_nonempty with rfl | ⟨a₀, ha₀⟩
  · simp
  have : Nonempty α := ⟨(hShared a₀ ha₀).choose⟩
  choose! shared hShared using hShared
  refine Finset.card_le_card_of_injOn shared (fun a ha => (hShared a ha).2) ?_
  intro a ha b hb hab
  by_contra hne
  apply Finset.disjoint_left.mp (hS a ha b hb hne) (hShared a ha).1
  rw [hab]
  exact (hShared b hb).1

omit [DecidableEq α] in
/-- The items a packing charges to `y`: `y` alone when it is a member, otherwise
items that all share a resource with `y`. -/
theorem card_charged_le {charge : ι → ι} {y : ι} (hk : 1 ≤ k) (hy : (res y).card ≤ k)
    (hS : ∀ a ∈ S, ∀ b ∈ S, a ≠ b → Disjoint (res a) (res b))
    (hCharge : ∀ a ∈ S, charge a = a ∨ ¬ Disjoint (res a) (res (charge a))) :
    (S.filter fun a => charge a = y).card ≤ k := by
  by_cases hMember : y ∈ S.filter fun a => charge a = y
  · refine le_trans (Finset.card_le_one.mpr ?_) hk
    have hOnly : ∀ a ∈ S.filter (fun a => charge a = y), a = y := by
      intro a ha
      by_contra hne
      obtain ⟨haS, hay⟩ := Finset.mem_filter.mp ha
      have hDisjoint := hS a haS y (Finset.mem_filter.mp hMember).1 hne
      rcases hCharge a haS with h | h
      · exact hne (h.symm.trans hay)
      · rw [hay] at h
        exact h hDisjoint
    intro a ha b hb
    rw [hOnly a ha, hOnly b hb]
  · refine le_trans (card_le_of_meet y ?_ ?_) hy
    · intro a ha b hb
      exact hS a (Finset.mem_filter.mp ha).1 b (Finset.mem_filter.mp hb).1
    · intro a ha
      obtain ⟨haS, hay⟩ := Finset.mem_filter.mp ha
      rcases hCharge a haS with h | h
      · rw [h] at hay
        rw [hay] at ha
        exact absurd ha hMember
      · rwa [hay] at h

theorem sum_le_of_packing (res : ι → Finset α) (weight : ι → ℕ) (hk : 1 ≤ k)
    (hWeight : xs.Pairwise fun a b => weight b ≤ weight a)
    (hCard : ∀ x ∈ xs, (res x).card ≤ k) (hSub : ∀ a ∈ S, a ∈ xs)
    (hS : ∀ a ∈ S, ∀ b ∈ S, a ≠ b → Disjoint (res a) (res b)) :
    ∑ a ∈ S, weight a ≤ k * ∑ y ∈ (select res ∅ xs).toFinset, weight y := by
  have hCharge : ∀ a ∈ S, ∃ y ∈ select res ∅ xs,
      weight a ≤ weight y ∧ (y = a ∨ ¬ Disjoint (res a) (res y)) := by
    intro a ha
    by_cases hKept : a ∈ select res ∅ xs
    · exact ⟨a, hKept, le_rfl, Or.inl rfl⟩
    · obtain ⟨y, hy, hle, hMeet⟩ := exists_blocker hWeight (hSub a ha) hKept
      exact ⟨y, hy, hle, Or.inr fun h => hMeet h.symm⟩
  choose! charge hKept hLe hShare using hCharge
  have hMaps : ∀ a ∈ S, charge a ∈ (select res ∅ xs).toFinset := by
    intro a ha
    exact List.mem_toFinset.mpr (hKept a ha)
  calc ∑ a ∈ S, weight a
      ≤ ∑ a ∈ S, weight (charge a) := Finset.sum_le_sum hLe
    _ = ∑ y ∈ (select res ∅ xs).toFinset, ∑ a ∈ S with charge a = y, weight (charge a) :=
        (Finset.sum_fiberwise_of_maps_to hMaps _).symm
    _ ≤ ∑ y ∈ (select res ∅ xs).toFinset, k * weight y := by
        apply Finset.sum_le_sum
        intro y hy
        have hConst : ∑ a ∈ S with charge a = y, weight (charge a) =
            (S.filter fun a => charge a = y).card * weight y :=
          Finset.sum_const_nat fun a ha => by rw [(Finset.mem_filter.mp ha).2]
        have hyCard := hCard y ((select_sublist ∅ xs).subset (List.mem_toFinset.mp hy))
        rw [hConst]
        exact Nat.mul_le_mul_right _ (card_charged_le hk hyCard hS hShare)
    _ = k * ∑ y ∈ (select res ∅ xs).toFinset, weight y := (Finset.mul_sum _ _ _).symm

end Charging

end Foundation.Packing
