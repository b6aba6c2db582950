import Mathlib.Data.List.Sort

/-!
# Stable sort by a decreasing key

`sortByKeyRev key` puts larger keys first and keeps the order of elements with
equal keys. Elements are compared by key only, so sorting commutes with forgetting
the part of an element that the key does not read.

* `pairwise_sortByKeyRev`: in the result every earlier element is `Ranked` before
  every later one: larger key, or equal key and earlier in the input.
* `pairwise_sortByKeyRev_iff`: which relations hold along the result.
* `sortByKeyRev_map`: sorting images is mapping the sorted list.
* `sortByKeyRev_raise`: raising the key of one element moves it towards the front
  and keeps the order of all others.
-/

namespace Foundation.StableSort

variable {α β κ : Type*} [LinearOrder κ]

/-- Stable sort, larger keys first. -/
def sortByKeyRev (key : α → κ) (l : List α) : List α :=
  l.insertionSort fun a b => key b ≤ key a

/-- Larger key, or equal key and `before`. -/
def Ranked (key : α → κ) (before : α → α → Prop) (a b : α) : Prop :=
  key b < key a ∨ key b = key a ∧ before a b

theorem Ranked.key_le {key : α → κ} {before : α → α → Prop} {a b : α}
    (h : Ranked key before a b) : key b ≤ key a := by
  rcases h with h | h
  · exact h.le
  · exact h.1.le

theorem sortByKeyRev_perm (key : α → κ) (l : List α) : (sortByKeyRev key l).Perm l :=
  List.perm_insertionSort _ l

theorem sortByKeyRev_map (key : β → κ) (f : α → β) (l : List α) :
    sortByKeyRev key (l.map f) = (sortByKeyRev (fun a => key (f a)) l).map f :=
  (List.map_insertionSort _ _ f l fun _ _ _ _ => Iff.rfl).symm

/-- Inserting an element that comes before all others of the input keeps the
ranking: it stops in front of the first key that is not larger than its own. -/
theorem pairwise_orderedInsert {key : α → κ} {before : α → α → Prop} {a : α} {l : List α}
    (hl : l.Pairwise (Ranked key before)) (ha : ∀ b ∈ l, before a b) :
    (l.orderedInsert (fun a b => key b ≤ key a) a).Pairwise (Ranked key before) := by
  induction l with
  | nil => simp
  | cons b l ih =>
    obtain ⟨hb, hl'⟩ := List.pairwise_cons.mp hl
    rw [List.orderedInsert_cons]
    split
    · rename_i hba
      refine List.pairwise_cons.mpr ⟨?_, hl⟩
      intro c hc
      have hcb : key c ≤ key b := by
        rcases List.mem_cons.mp hc with rfl | hc
        · exact le_rfl
        · exact (hb c hc).key_le
      rcases (hcb.trans hba).lt_or_eq with hlt | heq
      · exact Or.inl hlt
      · exact Or.inr ⟨heq, ha c hc⟩
    · rename_i hba
      refine List.pairwise_cons.mpr ⟨?_, ih hl' fun c hc => ha c (List.mem_cons_of_mem _ hc)⟩
      intro c hc
      rcases (List.mem_orderedInsert _).mp hc with rfl | hc
      · exact Or.inl (lt_of_not_ge hba)
      · exact hb c hc

theorem pairwise_sortByKeyRev {key : α → κ} {before : α → α → Prop} {l : List α}
    (h : l.Pairwise before) : (sortByKeyRev key l).Pairwise (Ranked key before) := by
  induction l with
  | nil => simp [sortByKeyRev]
  | cons a l ih =>
    obtain ⟨ha, hl⟩ := List.pairwise_cons.mp h
    apply pairwise_orderedInsert (ih hl)
    intro b hb
    exact ha b ((sortByKeyRev_perm key l).mem_iff.mp hb)

omit [LinearOrder κ] in
theorem rel_or_rel_of_pairwise {R : α → α → Prop} {l : List α} (h : l.Pairwise R)
    {a b : α} (ha : a ∈ l) (hb : b ∈ l) (hne : a ≠ b) : R a b ∨ R b a := by
  obtain ⟨i, hi, rfl⟩ := List.mem_iff_getElem.mp ha
  obtain ⟨j, hj, rfl⟩ := List.mem_iff_getElem.mp hb
  rcases lt_trichotomy i j with hij | rfl | hji
  · exact Or.inl (List.pairwise_iff_getElem.mp h i j hi hj hij)
  · exact absurd rfl hne
  · exact Or.inr (List.pairwise_iff_getElem.mp h j i hj hi hji)

/-- A relation holds along the result if it holds from larger to smaller keys, and in
the order of the input between equal ones. -/
theorem pairwise_sortByKeyRev_iff {key : α → κ} {R : α → α → Prop} {l : List α} :
    (sortByKeyRev key l).Pairwise R ↔
      (∀ a ∈ l, ∀ b ∈ l, key b < key a → R a b) ∧ l.Pairwise fun a b => key a = key b → R a b := by
  constructor
  · intro h
    constructor
    · intro a ha b hb hLt
      have hne : a ≠ b := by
        rintro rfl
        exact lt_irrefl _ hLt
      have hRanked : (sortByKeyRev key l).Pairwise (Ranked key fun _ _ => True) :=
        pairwise_sortByKeyRev (List.pairwise_of_forall fun _ _ => trivial)
      have hMem : ∀ c ∈ l, c ∈ sortByKeyRev key l := fun c => (sortByKeyRev_perm key l).mem_iff.mpr
      rcases rel_or_rel_of_pairwise (hRanked.and h) (hMem a ha) (hMem b hb) hne with
        ⟨-, hR⟩ | ⟨hBack, -⟩
      · exact hR
      · exact absurd hBack.key_le (not_le.mpr hLt)
    · refine List.pairwise_of_forall_sublist ?_
      intro a b hPair hEq
      exact h.forall_sublist (List.pair_sublist_insertionSort hEq.ge hPair)
  · rintro ⟨hLarger, hEqual⟩
    have hRanked : (sortByKeyRev key l).Pairwise (Ranked key fun a b => key a = key b → R a b) :=
      pairwise_sortByKeyRev hEqual
    refine hRanked.imp_of_mem ?_
    intro a b ha hb hOrder
    rcases hOrder with hLt | ⟨hEq, hR⟩
    · exact hLarger a ((sortByKeyRev_perm key l).mem_iff.mp ha) b
        ((sortByKeyRev_perm key l).mem_iff.mp hb) hLt
    · exact hR hEq.symm

/-- Removing `x` from a list without repetitions in which `x` stands after `xs`. -/
theorem erase_append_cons [DecidableEq α] {x : α} {xs ys : List α}
    (h : (xs ++ x :: ys).Nodup) : (xs ++ x :: ys).erase x = xs ++ ys := by
  have hx : x ∉ xs := by
    intro hMem
    exact (List.nodup_append.mp h).2.2 x hMem x List.mem_cons_self rfl
  rw [List.erase_append_right _ hx, List.erase_cons_head]

/-- No two elements are ranked both ways. -/
theorem Ranked.asymm {key : α → κ} {before : α → α → Prop} {a b : α}
    (hAsymm : ∀ a b, before a b → ¬ before b a) (hab : Ranked key before a b) :
    ¬ Ranked key before b a := by
  intro hba
  rcases hab with hlt | ⟨heq, hBefore⟩
  · exact absurd hba.key_le (not_le_of_gt hlt)
  · rcases hba with hlt | ⟨_, hAfter⟩
    · exact absurd heq hlt.ne'
    · exact hAsymm a b hBefore hAfter

theorem pairwise_of_raised {key key' : α → κ} {before : α → α → Prop} {x : α} {l : List α}
    (hOthers : ∀ a, a ≠ x → key' a = key a) (hx : x ∉ l)
    (hl : l.Pairwise (Ranked key' before)) : l.Pairwise (Ranked key before) := by
  apply hl.imp_of_mem
  intro a b ha hb hab
  rw [Ranked, hOthers a (ne_of_mem_of_not_mem ha hx),
    hOthers b (ne_of_mem_of_not_mem hb hx)] at hab
  exact hab

/-- An element with a raised key does not fall behind another one. -/
theorem Ranked.not_behind_of_raised {key key' : α → κ} {before : α → α → Prop} {a x : α}
    (hAsymm : ∀ a b, before a b → ¬ before b a) (hOther : key' a = key a)
    (hRaise : key x ≤ key' x) (hxa : Ranked key before x a) : ¬ Ranked key' before a x := by
  intro hax
  rw [Ranked, hOther] at hax
  rcases hax with hlt | ⟨heq, hBefore⟩
  · exact absurd (hxa.key_le.trans hRaise) (not_le_of_gt hlt)
  · rcases hxa with hlt | ⟨_, hAfter⟩
    · exact absurd (hlt.trans_le hRaise) heq.not_gt
    · exact hAsymm a x hBefore hAfter

/-- The two orders differ in the place of `x` only, and the raised `x` stands in front
of some of the elements that used to be before it. -/
theorem sortByKeyRev_raise [DecidableEq α] (key key' : α → κ) {before : α → α → Prop}
    (hAsymm : ∀ a b, before a b → ¬ before b a) {l : List α} (hl : l.Pairwise before) {x : α}
    (hx : x ∈ l) (hOthers : ∀ a, a ≠ x → key' a = key a) (hRaise : key x ≤ key' x) :
    ∃ pre mid post, sortByKeyRev key l = pre ++ mid ++ x :: post ∧
      sortByKeyRev key' l = pre ++ x :: (mid ++ post) := by
  have hNodup : l.Nodup := hl.imp fun {a b} hab => by
    rintro rfl
    exact hAsymm a a hab hab
  have hOldSorted : (sortByKeyRev key l).Pairwise (Ranked key before) := pairwise_sortByKeyRev hl
  have hNewSorted : (sortByKeyRev key' l).Pairwise (Ranked key' before) := pairwise_sortByKeyRev hl
  have hOldPerm := sortByKeyRev_perm key l
  have hNewPerm := sortByKeyRev_perm key' l
  obtain ⟨pre, post, hOld⟩ := List.append_of_mem (hOldPerm.mem_iff.mpr hx)
  obtain ⟨pre', post', hNew⟩ := List.append_of_mem (hNewPerm.mem_iff.mpr hx)
  rw [hOld] at hOldSorted hOldPerm
  rw [hNew] at hNewSorted hNewPerm
  have hOldErase := erase_append_cons (hOldPerm.nodup_iff.mpr hNodup)
  have hNewErase := erase_append_cons (hNewPerm.nodup_iff.mpr hNodup)
  have hNotMem : x ∉ pre' ++ post' := by
    rw [← hNewErase]
    exact (hNewPerm.nodup_iff.mpr hNodup).not_mem_erase
  -- without `x` both orders are the one order of the others by the old key
  have hRest : pre ++ post = pre' ++ post' := by
    have hPerm : (pre ++ post).Perm (pre' ++ post') := by
      rw [← hOldErase, ← hNewErase]
      exact (hOldPerm.trans hNewPerm.symm).erase x
    have hOldRest := hOldSorted.sublist ((List.sublist_cons_self x post).append_left pre)
    have hNewRest := pairwise_of_raised hOthers hNotMem
      (hNewSorted.sublist ((List.sublist_cons_self x post').append_left pre'))
    apply List.Perm.eq_of_pairwise _ hOldRest hNewRest hPerm
    intro a b _ _ hab hba
    exact absurd hba (hab.asymm hAsymm)
  rcases List.append_eq_append_iff.mp hRest with ⟨mid, hPre, hPost⟩ | ⟨mid, hPre, hPost⟩
  · -- `x` would have to move back, so nothing lies in between
    have hMid : mid = [] := by
      apply List.eq_nil_iff_forall_not_mem.mpr
      intro a ha
      have haNew : a ∈ pre' := by
        rw [hPre]
        exact List.mem_append_right _ ha
      have haOld : a ∈ post := by
        rw [hPost]
        exact List.mem_append_left _ ha
      have hxa : Ranked key before x a :=
        List.rel_of_pairwise_cons (List.pairwise_append.mp hOldSorted).2.1 haOld
      have hax : Ranked key' before a x :=
        (List.pairwise_append.mp hNewSorted).2.2 a haNew x List.mem_cons_self
      have hne : a ≠ x := ne_of_mem_of_not_mem (List.mem_append_left _ haNew) hNotMem
      exact hxa.not_behind_of_raised hAsymm (hOthers a hne) hRaise hax
    rw [hMid, List.append_nil] at hPre
    rw [hMid, List.nil_append] at hPost
    refine ⟨pre, [], post, ?_, ?_⟩
    · rw [hOld, List.append_nil]
    · rw [hNew, hPre, hPost, List.nil_append]
  · refine ⟨pre', mid, post, ?_, ?_⟩
    · rw [hOld, hPre]
    · rw [hNew, hPost]

end Foundation.StableSort
