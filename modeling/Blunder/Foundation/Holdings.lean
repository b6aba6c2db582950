import Blunder.Foundation.FirstFit
import Blunder.Foundation.ListScheduling

/-!
# The resources that each machine holds

A scheduler need not remember its placement to know which machines are free for an item:
the union of the resources of the items on each machine is enough, `Holds`. Taking an item
off its machine can be done by a set difference if the items there are disjoint.

* `Holds.firstFree_eq_some_iff`: first fit on the sets is first fit on the placement.
* `Holds.put`, `Holds.release`: an item is added, and an item is taken off.
-/

namespace Foundation.ListScheduling

open FirstFit

variable {ι ρ : Type} {n : ℕ} (res : ι → Finset ρ)

/-- Each set has the resources of the items on its machine. -/
def Holds (p : Placement ι n) (sets : Fin n → Finset ρ) : Prop :=
  ∀ v a, a ∈ sets v ↔ ∃ e ∈ p, e.2 = v ∧ a ∈ res e.1

/-- Machine `w` is the lowest that is free for `x`. -/
structure LowestFree (p : Placement ι n) (x : ι) (w : Fin n) : Prop where
  free : Free res p x w
  lowest : ∀ v < w, ¬ Free res p x v

variable {res} {p : Placement ι n} {sets : Fin n → Finset ρ} {x : ι} {w : Fin n}

theorem Holds.nil : Holds res ([] : Placement ι n) fun _ => ∅ := by
  intro v a
  simp

theorem Holds.disjoint_iff (h : Holds res p sets) (v : Fin n) :
    Disjoint (res x) (sets v) ↔ Free res p x v := by
  constructor
  · intro hDisjoint e he hMachine
    refine Finset.disjoint_left.mpr fun a ha hShared => ?_
    exact Finset.disjoint_left.mp hDisjoint ha ((h v a).mpr ⟨e, he, hMachine, hShared⟩)
  · intro hFree
    refine Finset.disjoint_left.mpr fun a ha hHeld => ?_
    obtain ⟨e, he, hMachine, hShared⟩ := (h v a).mp hHeld
    exact Finset.disjoint_left.mp (hFree e he hMachine) ha hShared

variable [DecidableEq ρ]

theorem Holds.firstFree_eq_some_iff (h : Holds res p sets) :
    firstFree sets (res x) = some w ↔ LowestFree res p x w := by
  simp only [FirstFit.firstFree_eq_some_iff, h.disjoint_iff]
  constructor
  · intro hFirst
    exact ⟨hFirst.1, hFirst.2⟩
  · intro hLowest
    exact ⟨hLowest.free, hLowest.lowest⟩

theorem Holds.firstFree_eq_none_iff (h : Holds res p sets) :
    firstFree sets (res x) = none ↔ ∀ v, ¬ Free res p x v := by
  simp only [FirstFit.firstFree_eq_none_iff, h.disjoint_iff]

theorem Holds.put (h : Holds res p sets) (x : ι) (w : Fin n) :
    Holds res (p ++ [(x, w)]) (put sets w (res x)) := by
  intro v a
  rw [mem_put, h v a]
  constructor
  · intro hPut
    rcases hPut with ⟨e, he, hMachine, ha⟩ | ⟨rfl, ha⟩
    · exact ⟨e, List.mem_append_left _ he, hMachine, ha⟩
    · exact ⟨(x, v), List.mem_append_right _ (List.mem_singleton_self _), rfl, ha⟩
  · intro hItem
    obtain ⟨e, he, hMachine, ha⟩ := hItem
    rcases List.mem_append.mp he with he | he
    · exact Or.inl ⟨e, he, hMachine, ha⟩
    · rw [List.mem_singleton.mp he] at hMachine ha
      exact Or.inr ⟨hMachine.symm, ha⟩

/-- No item left on the machine of `x` loses a resource, since none shares one with `x`. -/
theorem Holds.release {pre post : Placement ι n} (h : Holds res (pre ++ (x, w) :: post) sets)
    (hApart : Apart res (pre ++ (x, w) :: post)) :
    Holds res (pre ++ post) (Function.update sets w (sets w \ res x)) := by
  have hOthers : ∀ e ∈ pre ++ post, e.2 = w → Disjoint (res e.1) (res x) := by
    intro e he hMachine
    obtain ⟨-, hTail, hCross⟩ := List.pairwise_append.mp hApart
    rcases List.mem_append.mp he with he | he
    · exact hCross e he (x, w) List.mem_cons_self hMachine
    · exact ((List.pairwise_cons.mp hTail).1 e he hMachine.symm).symm
  have hMem : ∀ e, e ∈ pre ++ (x, w) :: post ↔ e = (x, w) ∨ e ∈ pre ++ post := by
    intro e
    rw [List.perm_middle.mem_iff, List.mem_cons]
  intro v a
  by_cases hv : v = w
  · subst hv
    rw [Function.update_self, Finset.mem_sdiff, h v a]
    constructor
    · intro hLeft
      obtain ⟨⟨e, he, hMachine, ha⟩, hReleased⟩ := hLeft
      rcases (hMem e).mp he with rfl | he
      · exact absurd ha hReleased
      · exact ⟨e, he, hMachine, ha⟩
    · intro hItem
      obtain ⟨e, he, hMachine, ha⟩ := hItem
      exact ⟨⟨e, (hMem e).mpr (Or.inr he), hMachine, ha⟩,
        Finset.disjoint_left.mp (hOthers e he hMachine) ha⟩
  · rw [Function.update_of_ne hv, h v a]
    apply exists_congr
    intro e
    rw [hMem e, or_and_right, or_iff_right]
    intro hReleased
    obtain ⟨rfl, hMachine, -⟩ := hReleased
    exact hv hMachine.symm

end Foundation.ListScheduling
