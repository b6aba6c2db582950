import Mathlib.Data.Finset.Basic
import Mathlib.Data.Finset.Lattice.Lemmas
import Mathlib.Data.Fin.Basic
import Mathlib.Data.List.FinRange
import Mathlib.Data.List.Pairwise
import Mathlib.Data.List.TakeDrop
import Mathlib.Logic.Function.Basic

/-!
# First fit

Items that are finite sets are put one after another into the lowest of `n` bins whose
content they are disjoint from. An item that meets the content of every bin is left out.

* `firstFree_eq_some_iff`, `firstFree_eq_none_iff`: the bin of one item.
* `getElem_fit`: the bin of the item at a position, by the content at that point.
* `all_placed_iff`: from empty bins no item is left out exactly when the items have a
  first-fit colouring (`IsFirstFit`) with `n` colours.
* `isSpread_of_fit`, `IsSpread.fit_eq_map`: what first fit can do if the order of the
  items is open.
* `fit_append_of_empty`: empty items all go to the first bin and are not noticed.
* `fit_add`: content that no placed item meets in its bin changes no placement.
-/

namespace Foundation.FirstFit

variable {α : Type*} [DecidableEq α] {n : ℕ}

/-- The lowest bin whose content is disjoint from `w`. -/
def firstFree (bins : Fin n → Finset α) (w : Finset α) : Option (Fin n) :=
  (List.finRange n).find? fun b => decide (Disjoint w (bins b))

/-- Add `w` to the content of one bin. -/
def put (bins : Fin n → Finset α) (b : Fin n) (w : Finset α) : Fin n → Finset α :=
  Function.update bins b (bins b ∪ w)

/-- The bin of each item, `none` where it is left out. -/
def fit (bins : Fin n → Finset α) : List (Finset α) → List (Option (Fin n))
  | [] => []
  | w :: ws =>
    match firstFree bins w with
    | some b => some b :: fit (put bins b w) ws
    | none => none :: fit bins ws

/-- The content of the bins after all items. -/
def fill (bins : Fin n → Finset α) : List (Finset α) → Fin n → Finset α
  | [] => bins
  | w :: ws =>
    match firstFree bins w with
    | some b => fill (put bins b w) ws
    | none => fill bins ws

variable {bins : Fin n → Finset α} {w : Finset α} {ws : List (Finset α)} {b c : Fin n} {a : α}

/-! ## One item -/

theorem firstFree_eq_none_iff : firstFree bins w = none ↔ ∀ b, ¬ Disjoint w (bins b) := by
  simp [firstFree, List.find?_eq_none]

theorem firstFree_eq_some_iff :
    firstFree bins w = some b ↔ Disjoint w (bins b) ∧ ∀ c < b, ¬ Disjoint w (bins c) := by
  rw [firstFree, List.find?_eq_some_iff_getElem]
  simp only [decide_eq_true_eq, List.length_finRange, List.getElem_finRange, Bool.not_eq_eq_eq_not,
    Bool.not_true, decide_eq_false_iff_not]
  apply and_congr_right
  intro _
  constructor
  · rintro ⟨i, hi, rfl, hLower⟩ c hc
    exact hLower c hc
  · intro hLower
    exact ⟨b, b.isLt, rfl, fun j hj => hLower ⟨j, by omega⟩ hj⟩

theorem mem_put : a ∈ put bins b w c ↔ a ∈ bins c ∨ c = b ∧ a ∈ w := by
  unfold put
  by_cases hc : c = b
  · subst hc
    simp
  · simp [hc]

/-! ## All items -/

@[simp] theorem length_fit : (fit bins ws).length = ws.length := by
  induction ws generalizing bins with
  | nil => rfl
  | cons w ws ih =>
    unfold fit
    split <;> simp [ih]

/-- A bin holds what it held before and the items put into it. -/
theorem mem_fill : a ∈ fill bins ws c ↔
    a ∈ bins c ∨ ∃ i, ∃ hi : i < ws.length, (fit bins ws)[i]? = some (some c) ∧ a ∈ ws[i] := by
  induction ws generalizing bins with
  | nil => simp [fill]
  | cons w ws ih =>
    have hSplit : ∀ p : (i : ℕ) → i < (w :: ws).length → Prop,
        (∃ i, ∃ hi : i < (w :: ws).length, p i hi) ↔
          p 0 (Nat.succ_pos _) ∨ ∃ i, ∃ hi : i < ws.length, p (i + 1) (Nat.succ_lt_succ hi) := by
      intro p
      constructor
      · rintro ⟨_ | i, hi, hp⟩
        · exact Or.inl hp
        · exact Or.inr ⟨i, Nat.lt_of_succ_lt_succ hi, hp⟩
      · rintro (hp | ⟨i, hi, hp⟩)
        · exact ⟨0, _, hp⟩
        · exact ⟨i + 1, _, hp⟩
    rw [hSplit, fill, fit]
    cases firstFree bins w with
    | none => simp [ih]
    | some b => simp [ih, mem_put, or_assoc, eq_comm]

theorem disjoint_fill_iff : Disjoint w (fill (fun _ => ∅) ws c) ↔
    ∀ i (hi : i < ws.length), (fit (fun _ => ∅) ws)[i]? = some (some c) → Disjoint w ws[i] := by
  simp only [Finset.disjoint_left, mem_fill, Finset.notMem_empty, false_or, not_exists, not_and]
  constructor
  · intro hAll i hi hFit a ha
    exact hAll ha i hi hFit
  · intro hAll a ha i hi hFit
    exact hAll i hi hFit ha

theorem fit_take (i : ℕ) : fit bins (ws.take i) = (fit bins ws).take i := by
  induction ws generalizing bins i with
  | nil => simp [fit]
  | cons w ws ih =>
    cases i with
    | zero => simp [fit]
    | succ i =>
      rw [List.take_succ_cons, fit, fit]
      cases firstFree bins w <;> simp [ih]

/-- The bin of an item is the lowest that is free of the items before it. -/
theorem getElem_fit {i : ℕ} (hi : i < ws.length) :
    (fit bins ws)[i]? = some (firstFree (fill bins (ws.take i)) ws[i]) := by
  induction ws generalizing bins i with
  | nil => simp at hi
  | cons w ws ih =>
    cases i with
    | zero =>
      unfold fit
      cases hFree : firstFree bins w <;> simp [fill, hFree]
    | succ i =>
      have hi' : i < ws.length := Nat.lt_of_succ_lt_succ hi
      rw [fit, List.take_succ_cons, fill]
      cases hFree : firstFree bins w <;> simp [ih hi']

/-- Items that meet the content of every bin are all left out. -/
theorem fit_replicate (hMeets : ∀ b, ¬ Disjoint w (bins b)) (k : ℕ) :
    fit bins (List.replicate k w) = List.replicate k none := by
  induction k with
  | zero => rfl
  | succ k ih =>
    rw [List.replicate_succ, List.replicate_succ, fit, firstFree_eq_none_iff.mpr hMeets]
    simp only [ih]

/-- An empty item goes to the first bin and leaves it as it is. -/
theorem fit_append_of_empty (hCount : 0 < n) {us : List (Finset α)} (hEmpty : ∀ u ∈ us, u = ∅) :
    fit bins (us ++ ws) = List.replicate us.length (some ⟨0, hCount⟩) ++ fit bins ws := by
  induction us with
  | nil => rfl
  | cons u us ih =>
    obtain ⟨rfl, hRest⟩ := List.forall_mem_cons.mp hEmpty
    have hFirst : firstFree bins ∅ = some ⟨0, hCount⟩ :=
      firstFree_eq_some_iff.mpr ⟨Finset.disjoint_empty_left _, fun c hc => absurd hc (Nat.not_lt_zero c)⟩
    have hSame : put bins ⟨0, hCount⟩ ∅ = bins := by
      rw [put, Finset.union_empty, Function.update_eq_self]
    rw [List.cons_append, fit, hFirst, List.length_cons, List.replicate_succ, List.cons_append]
    simp only [hSame, ih hRest]

/-! ## First-fit colourings -/

/-- Each item has the lowest colour that no earlier item it meets has. -/
def IsFirstFit (ws : List (Finset α)) (color : Fin ws.length → Fin n) : Prop :=
  ∀ i, (∀ j < i, color j = color i → Disjoint ws[i] ws[j]) ∧
    ∀ c < color i, ∃ j < i, color j = c ∧ ¬ Disjoint ws[i] ws[j]

/-- What a colouring puts into the bin `c` before the item at position `i`. -/
theorem disjoint_fill_take_iff {color : Fin ws.length → Fin n} {i : Fin ws.length}
    (hBefore : ∀ j < i, (fit (fun _ => ∅) ws)[j.val]? = some (some (color j))) (c : Fin n) :
    Disjoint ws[i] (fill (fun _ => ∅) (ws.take i) c) ↔
      ∀ j < i, color j = c → Disjoint ws[i] ws[j] := by
  rw [disjoint_fill_iff, fit_take]
  constructor
  · intro hAll j hj hColor
    have hLt : j.val < (ws.take i).length := by
      rw [List.length_take]
      omega
    have hDisjoint := hAll j.val hLt (by rw [List.getElem?_take_of_lt hj, hBefore j hj, hColor])
    rwa [List.getElem_take] at hDisjoint
  · intro hAll j hj hFit
    rw [List.length_take] at hj
    have hji : j < i.val := by omega
    rw [List.getElem?_take_of_lt hji, hBefore ⟨j, by omega⟩ hji] at hFit
    rw [List.getElem_take]
    exact hAll ⟨j, by omega⟩ hji (Option.some.inj (Option.some.inj hFit))

/-- Where first fit puts each item is a first-fit colouring. -/
theorem isFirstFit_of_placed {color : Fin ws.length → Fin n}
    (hColor : ∀ i, (fit (fun _ => ∅) ws)[i.val]? = some (some (color i))) :
    IsFirstFit ws color := by
  intro i
  have hFree : firstFree (fill (fun _ => ∅) (ws.take i)) ws[i] = some (color i) :=
    Option.some.inj ((getElem_fit i.isLt).symm.trans (hColor i))
  obtain ⟨hFits, hLower⟩ := firstFree_eq_some_iff.mp hFree
  refine ⟨(disjoint_fill_take_iff (fun j _ => hColor j) _).mp hFits, ?_⟩
  intro c hc
  have hMeets := (disjoint_fill_take_iff (fun j _ => hColor j) c).not.mp (hLower c hc)
  push Not at hMeets
  exact hMeets

/-- First fit follows a first-fit colouring, shown for more and more positions. -/
theorem IsFirstFit.placed {color : Fin ws.length → Fin n} (h : IsFirstFit ws color) (k : ℕ) :
    ∀ i : Fin ws.length, i.val < k → (fit (fun _ => ∅) ws)[i.val]? = some (some (color i)) := by
  induction k with
  | zero =>
    intro i hi
    omega
  | succ k ih =>
    intro i hi
    have hBefore : ∀ j < i, (fit (fun _ : Fin n => (∅ : Finset α)) ws)[j.val]? =
        some (some (color j)) := by
      intro j hj
      have hjk : j.val < k := by omega
      exact ih j hjk
    rw [getElem_fit i.isLt]
    refine congrArg some (firstFree_eq_some_iff.mpr ⟨?_, ?_⟩)
    · exact (disjoint_fill_take_iff hBefore _).mpr (h i).1
    · intro c hc hFits
      obtain ⟨j, hj, hjc, hMeets⟩ := (h i).2 c hc
      exact hMeets ((disjoint_fill_take_iff hBefore c).mp hFits j hj hjc)

theorem all_placed_iff : (∀ p ∈ fit (fun _ : Fin n => (∅ : Finset α)) ws, p ≠ none) ↔
    ∃ color : Fin ws.length → Fin n, IsFirstFit ws color := by
  constructor
  · intro hAll
    have hPlaced : ∀ i : Fin ws.length, ∃ b : Fin n,
        (fit (fun _ : Fin n => (∅ : Finset α)) ws)[i.val]? = some (some b) := by
      intro i
      have hLt : i.val < (fit (fun _ : Fin n => (∅ : Finset α)) ws).length := by
        rw [length_fit]
        exact i.isLt
      obtain ⟨b, hb⟩ := Option.ne_none_iff_exists'.mp (hAll _ (List.getElem_mem hLt))
      exact ⟨b, by rw [List.getElem?_eq_getElem hLt, hb]⟩
    choose color hColor using hPlaced
    exact ⟨color, isFirstFit_of_placed hColor⟩
  · rintro ⟨color, hColor⟩ p hp
    obtain ⟨i, hi, rfl⟩ := List.mem_iff_getElem.mp hp
    have hLt : i < ws.length := by
      rwa [length_fit] at hi
    have hSome := hColor.placed (i + 1) ⟨i, hLt⟩ (Nat.lt_succ_self i)
    rw [List.getElem?_eq_getElem hi] at hSome
    rw [Option.some.inj hSome]
    exact Option.some_ne_none _

/-! ## Any order -/

section AnyOrder

variable {β : Type*} {content : β → Finset α} {place : β → Option (Fin n)} {order items : List β}

theorem fit_append {us : List (Finset α)} :
    fit bins (us ++ ws) = fit bins us ++ fit (fill bins us) ws := by
  induction us generalizing bins with
  | nil => rfl
  | cons u us ih =>
    rw [List.cons_append, fit, fit, fill]
    cases firstFree bins u with
    | none => exact congrArg (List.cons none) ih
    | some b => exact congrArg (List.cons (some b)) ih

/-- The bin is below that of an item; an item that is left out has all bins below it. -/
def Lower (c : Fin n) (p : Option (Fin n)) : Prop := ∀ b, p = some b → c < b

/-- After the items `before` the lowest free bin for `x` is `place x`. -/
structure Suits (content : β → Finset α) (place : β → Option (Fin n)) (before : List β) (x : β) :
    Prop where
  disjoint : ∀ y ∈ before, ∀ b, place x = some b → place y = some b → Disjoint (content x) (content y)
  low : ∀ c, Lower c (place x) → ∃ y ∈ before, place y = some c ∧ ¬ Disjoint (content x) (content y)

theorem disjoint_fill_map_iff {before : List β}
    (hFit : fit (fun _ => ∅) (before.map content) = before.map place) (c : Fin n) :
    Disjoint w (fill (fun _ => ∅) (before.map content) c) ↔
      ∀ y ∈ before, place y = some c → Disjoint w (content y) := by
  rw [disjoint_fill_iff, hFit]
  constructor
  · intro hAll y hy hPlace
    obtain ⟨i, hi, rfl⟩ := List.mem_iff_getElem.mp hy
    have hLt : i < (before.map content).length := by rwa [List.length_map]
    have hDisjoint := hAll i hLt (by
      rw [List.getElem?_map, List.getElem?_eq_getElem hi, Option.map_some, hPlace])
    rwa [List.getElem_map] at hDisjoint
  · intro hAll i hi hPlace
    have hLt : i < before.length := by rwa [List.length_map] at hi
    rw [List.getElem?_map, List.getElem?_eq_getElem hLt] at hPlace
    rw [List.getElem_map]
    exact hAll _ (List.getElem_mem hLt) (Option.some.inj hPlace)

theorem firstFree_fill_eq_iff {before : List β} {x : β}
    (hFit : fit (fun _ => ∅) (before.map content) = before.map place) :
    firstFree (fill (fun _ => ∅) (before.map content)) (content x) = place x ↔
      Suits content place before x := by
  have hMeets : ∀ c : Fin n, ¬ Disjoint (content x) (fill (fun _ => ∅) (before.map content) c) ↔
      ∃ y ∈ before, place y = some c ∧ ¬ Disjoint (content x) (content y) := by
    intro c
    rw [disjoint_fill_map_iff hFit]
    push Not
    rfl
  cases hPlace : place x with
  | none =>
    rw [firstFree_eq_none_iff]
    constructor
    · intro hAll
      refine ⟨?_, fun c _ => (hMeets c).mp (hAll c)⟩
      intro y _ b hb
      rw [hPlace] at hb
      cases hb
    · intro h b
      refine (hMeets b).mpr (h.low b ?_)
      intro c hc
      rw [hPlace] at hc
      cases hc
  | some b =>
    rw [firstFree_eq_some_iff, disjoint_fill_map_iff hFit]
    constructor
    · rintro ⟨hFree, hLower⟩
      refine ⟨?_, fun c hc => (hMeets c).mp (hLower c (hc b hPlace))⟩
      intro y hy c hc hyc
      rw [hPlace] at hc
      cases hc
      exact hFree y hy hyc
    · intro h
      refine ⟨fun y hy hyb => h.disjoint y hy b hPlace hyb, ?_⟩
      intro c hc
      refine (hMeets c).mpr (h.low c ?_)
      intro b' hb'
      rw [hPlace] at hb'
      cases hb'
      exact hc

/-- First fit puts the items where `place` says if this suits each of them after those
before it. -/
theorem fit_eq_map_iff : fit (fun _ => ∅) (order.map content) = order.map place ↔
    ∀ before x after, order = before ++ x :: after → Suits content place before x := by
  induction order using List.reverseRecOn with
  | nil => exact iff_of_true rfl fun before x after h => by simp at h
  | append_singleton order x ih =>
    rw [List.map_append, List.map_append, fit_append]
    have hLast : fit (fill (fun _ : Fin n => ∅) (order.map content)) ([x].map content) =
        [firstFree (fill (fun _ => ∅) (order.map content)) (content x)] := by
      rw [List.map_singleton, fit]
      cases firstFree (fill (fun _ : Fin n => ∅) (order.map content)) (content x) <;> rfl
    rw [hLast]
    constructor
    · intro h before y after hSplit
      obtain ⟨hInit, hx⟩ := List.append_inj' h rfl
      rcases List.eq_nil_or_concat after with rfl | ⟨after, z, rfl⟩
      · obtain ⟨rfl, hxy⟩ := List.append_inj' hSplit rfl
        cases hxy
        exact (firstFree_fill_eq_iff hInit).mp (List.singleton_inj.mp hx)
      · rw [List.concat_eq_append, ← List.cons_append, ← List.append_assoc] at hSplit
        exact ih.mp hInit before y after (List.append_inj' hSplit rfl).1
    · intro h
      have hInit : fit (fun _ => ∅) (order.map content) = order.map place := by
        refine ih.mpr fun before y after hSplit => h before y (after ++ [x]) ?_
        rw [hSplit, List.append_assoc, List.cons_append]
      rw [hInit, (firstFree_fill_eq_iff hInit).mpr (h order x [] rfl)]
      rfl

/-- What first fit can do with items that come phase by phase, in any order within a
phase: the items in a bin are disjoint, and each meets an item of its phase or an earlier
one in every bin below its own. -/
structure IsSpread (content : β → Finset α) (phase : β → ℕ) (items : List β)
    (place : β → Option (Fin n)) : Prop where
  disjoint : ∀ x ∈ items, ∀ y ∈ items, x ≠ y → ∀ b, place x = some b → place y = some b →
    Disjoint (content x) (content y)
  low : ∀ x ∈ items, ∀ c, Lower c (place x) →
    ∃ y ∈ items, phase y ≤ phase x ∧ place y = some c ∧ ¬ Disjoint (content x) (content y)

variable {phase : β → ℕ}

omit [DecidableEq α] in
theorem IsSpread.congr (h : IsSpread content phase items place) (hSame : ∀ x, x ∈ order ↔ x ∈ items) :
    IsSpread content phase order place where
  disjoint x hx y hy := h.disjoint x ((hSame x).mp hx) y ((hSame y).mp hy)
  low x hx c hc := by
    obtain ⟨y, hy, hMeets⟩ := h.low x ((hSame x).mp hx) c hc
    exact ⟨y, (hSame y).mpr hy, hMeets⟩

theorem isSpread_of_fit (hPhases : order.Pairwise fun x y => phase x ≤ phase y)
    (hFit : fit (fun _ => ∅) (order.map content) = order.map place) :
    IsSpread content phase order place := by
  have hSuits := fit_eq_map_iff.mp hFit
  have hPairs : order.Pairwise fun x y => ∀ b, place x = some b → place y = some b →
      Disjoint (content x) (content y) := by
    clear hPhases hFit
    induction order using List.reverseRecOn with
    | nil => exact List.Pairwise.nil
    | append_singleton order x ih =>
      refine List.pairwise_append.mpr ⟨ih ?_, List.pairwise_singleton _ _, ?_⟩
      · intro before y after hSplit
        apply hSuits before y (after ++ [x])
        rw [hSplit, List.append_assoc, List.cons_append]
      · intro y hy z hz b hyb hzb
        rw [List.mem_singleton] at hz
        subst hz
        exact ((hSuits order z [] rfl).disjoint y hy b hzb hyb).symm
  constructor
  · intro x hx y hy hne
    have hSymm : Std.Symm fun x y : β => ∀ b, place x = some b → place y = some b →
        Disjoint (content x) (content y) := ⟨fun x y h b hy hx => (h b hx hy).symm⟩
    exact hPairs.forall hx hy hne
  · intro x hx c hc
    obtain ⟨before, after, rfl⟩ := List.append_of_mem hx
    obtain ⟨y, hy, hMeets⟩ := (hSuits before x after rfl).low c hc
    refine ⟨y, List.mem_append_left _ hy, ?_, hMeets⟩
    exact (List.pairwise_append.mp hPhases).2.2 y hy x List.mem_cons_self

/-- First fit follows a spread when no item comes before one of its phase in a lower
bin. -/
theorem IsSpread.fit_eq_map (h : IsSpread content phase order place) (hNodup : order.Nodup)
    (hSorted : order.Pairwise fun x y =>
      ∀ c, place y = some c → Lower c (place x) → phase x < phase y) :
    fit (fun _ => ∅) (order.map content) = order.map place := by
  refine fit_eq_map_iff.mpr ?_
  rintro before x after rfl
  have hx : x ∈ before ++ x :: after := List.mem_append_right _ List.mem_cons_self
  constructor
  · intro y hy b hxb hyb
    refine h.disjoint x hx y (List.mem_append_left _ hy) ?_ b hxb hyb
    rintro rfl
    exact (List.nodup_append.mp hNodup).2.2 x hy x List.mem_cons_self rfl
  · intro c hc
    obtain ⟨y, hy, hPhase, hyc, hMeets⟩ := h.low x hx c hc
    refine ⟨y, ?_, hyc, hMeets⟩
    rcases List.mem_append.mp hy with hBefore | hAfter
    · exact hBefore
    · rcases List.mem_cons.mp hAfter with rfl | hAfter
      · exact absurd (hc c hyc) (lt_irrefl c)
      · have hTail := (List.pairwise_append.mp hSorted).2.1
        have hLt := (List.pairwise_cons.mp hTail).1 y hAfter c hyc hc
        exact absurd hPhase (Nat.not_le.mpr hLt)

end AnyOrder

/-! ## Content from before -/

/-- Content already in the bins leaves the placement of an item as it is when the item
does not meet it in its own bin: the lower bins only get fuller. -/
theorem firstFree_add {old : Fin n → Finset α}
    (hOld : ∀ b, firstFree bins w = some b → Disjoint w (old b)) :
    firstFree (fun b => old b ∪ bins b) w = firstFree bins w := by
  cases hFree : firstFree bins w with
  | none =>
    rw [firstFree_eq_none_iff] at hFree ⊢
    intro b hb
    exact hFree b (Finset.disjoint_union_right.mp hb).2
  | some b =>
    have hFresh := hOld b hFree
    rw [firstFree_eq_some_iff] at hFree ⊢
    refine ⟨Finset.disjoint_union_right.mpr ⟨hFresh, hFree.1⟩, ?_⟩
    intro c hc hDisjoint
    exact hFree.2 c hc (Finset.disjoint_union_right.mp hDisjoint).2

theorem put_add (old : Fin n → Finset α) :
    put (fun b => old b ∪ bins b) b w = fun c => old c ∪ put bins b w c := by
  funext c
  rw [put, put]
  by_cases hc : c = b
  · subst hc
    simp [Finset.union_assoc]
  · simp [hc]

theorem fit_add {old : Fin n → Finset α}
    (hOld : ∀ x ∈ ws.zip (fit bins ws), ∀ b, x.2 = some b → Disjoint x.1 (old b)) :
    fit (fun b => old b ∪ bins b) ws = fit bins ws := by
  induction ws generalizing bins with
  | nil => rfl
  | cons w ws ih =>
    have hHead : ∀ b, firstFree bins w = some b → Disjoint w (old b) := by
      intro b hb
      refine hOld (w, some b) ?_ b rfl
      simp [fit, hb]
    rw [fit, fit, firstFree_add hHead]
    cases hFree : firstFree bins w with
    | none =>
      have hTail : fit (fun b => old b ∪ bins b) ws = fit bins ws := by
        refine ih fun x hx => hOld x ?_
        simp only [fit, hFree, List.zip_cons_cons]
        exact List.mem_cons_of_mem _ hx
      simp only [hTail]
    | some b =>
      have hTail : fit (fun c => old c ∪ put bins b w c) ws = fit (put bins b w) ws := by
        refine ih fun x hx => hOld x ?_
        simp only [fit, hFree, List.zip_cons_cons]
        exact List.mem_cons_of_mem _ hx
      simp only [put_add, hTail]

end Foundation.FirstFit
