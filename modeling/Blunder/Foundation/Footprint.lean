import Mathlib.Data.Finset.Basic
import Mathlib.Logic.Function.Basic

/-!
# Effects with a footprint

An effect changes a memory `κ → V`. It acts on a set of cells when it changes no others and
reads no others. Parties that hold disjoint sets of cells, each of which applies effects to
its own cells, leave the memory as if they had run one after another, in the order in which
they gave their cells back: `Tracks` compares the memory with the one that has seen the
finished parties alone.

* `ActsOn.comp`: effects after each other.
* `Tracks.acquire`, `Tracks.act`, `Tracks.release`: what the parties do.
* `Tracks.eq_of_idle`: when all have finished, the two memories are the same.
-/

namespace Foundation.Footprint

variable {κ V ι : Type*}

/-- The effect changes the cells of `s` only, and the new values depend on these only. -/
structure ActsOn (f : (κ → V) → κ → V) (s : Finset κ) : Prop where
  frame : ∀ m, ∀ k ∉ s, f m k = m k
  congr : ∀ m m', (∀ k ∈ s, m k = m' k) → ∀ k ∈ s, f m k = f m' k

namespace ActsOn

variable {f g : (κ → V) → κ → V} {s t : Finset κ}

theorem id (s : Finset κ) : ActsOn (fun m : κ → V => m) s where
  frame _ _ _ := rfl
  congr _ _ h := h

theorem comp (hf : ActsOn f s) (hg : ActsOn g s) : ActsOn (fun m => f (g m)) s where
  frame m k hk := (hf.frame (g m) k hk).trans (hg.frame m k hk)
  congr m m' h := hf.congr (g m) (g m') (hg.congr m m' h)

theorem mono (hf : ActsOn f s) (hst : s ⊆ t) : ActsOn f t where
  frame m k hk := hf.frame m k fun hks => hk (hst hks)
  congr m m' h k hk := by
    by_cases hks : k ∈ s
    · exact hf.congr m m' (fun j hj => h j (hst hj)) k hks
    · rw [hf.frame m k hks, hf.frame m' k hks]
      exact h k hk

end ActsOn

/-- `memory` is what the finished parties left in `serial`, and on the cells that a party
holds, what the party has made of that. -/
structure Tracks (memory serial : κ → V) (held : ι → Finset κ)
    (done : ι → (κ → V) → κ → V) : Prop where
  disjoint : ∀ i j, i ≠ j → Disjoint (held i) (held j)
  acts : ∀ i, ActsOn (done i) (held i)
  running : ∀ i, ∀ k ∈ held i, memory k = done i serial k
  rest : ∀ k, (∀ i, k ∉ held i) → memory k = serial k

namespace Tracks

variable {memory serial : κ → V} {held : ι → Finset κ} {done : ι → (κ → V) → κ → V} {i : ι}

theorem start (m : κ → V) : Tracks m m (fun _ : ι => ∅) fun _ m => m where
  disjoint _ _ _ := Finset.disjoint_empty_left _
  acts _ := ActsOn.id _
  running _ k hk := absurd hk (Finset.notMem_empty k)
  rest _ _ := rfl

theorem eq_of_idle (h : Tracks memory serial held done) (hIdle : ∀ i, held i = ∅) :
    memory = serial := by
  funext k
  apply h.rest k
  intro j hk
  rw [hIdle j] at hk
  exact Finset.notMem_empty k hk

variable [DecidableEq ι]

/-- A party takes cells that no other one holds. -/
theorem acquire (h : Tracks memory serial held done) (hNone : held i = ∅) {s : Finset κ}
    (hFree : ∀ j, Disjoint s (held j)) :
    Tracks memory serial (Function.update held i s) (Function.update done i fun m => m) := by
  refine ⟨?_, ?_, ?_, ?_⟩
  · intro j j' hjj'
    by_cases hj : j = i
    · subst hj
      rw [Function.update_self, Function.update_of_ne hjj'.symm]
      exact hFree j'
    · rw [Function.update_of_ne hj]
      by_cases hj' : j' = i
      · subst hj'
        rw [Function.update_self]
        exact (hFree j).symm
      · rw [Function.update_of_ne hj']
        exact h.disjoint j j' hjj'
  · intro j
    by_cases hj : j = i
    · subst hj
      rw [Function.update_self, Function.update_self]
      exact ActsOn.id s
    · rw [Function.update_of_ne hj, Function.update_of_ne hj]
      exact h.acts j
  · intro j k hk
    by_cases hj : j = i
    · subst hj
      rw [Function.update_self] at hk ⊢
      apply h.rest k
      intro j' hk'
      exact Finset.disjoint_left.mp (hFree j') hk hk'
    · rw [Function.update_of_ne hj] at hk ⊢
      exact h.running j k hk
  · intro k hk
    apply h.rest k
    intro j
    by_cases hj : j = i
    · subst hj
      rw [hNone]
      exact Finset.notMem_empty k
    · have hkj := hk j
      rwa [Function.update_of_ne hj] at hkj

/-- A party applies an effect to its cells. -/
theorem act (h : Tracks memory serial held done) {f : (κ → V) → κ → V}
    (hf : ActsOn f (held i)) :
    Tracks (f memory) serial held (Function.update done i fun m => f (done i m)) := by
  refine ⟨h.disjoint, ?_, ?_, ?_⟩
  · intro j
    by_cases hj : j = i
    · subst hj
      rw [Function.update_self]
      exact hf.comp (h.acts j)
    · rw [Function.update_of_ne hj]
      exact h.acts j
  · intro j k hk
    by_cases hj : j = i
    · subst hj
      rw [Function.update_self]
      exact hf.congr memory (done j serial) (h.running j) k hk
    · rw [Function.update_of_ne hj, hf.frame memory k (Finset.disjoint_left.mp (h.disjoint j i hj) hk)]
      exact h.running j k hk
  · intro k hk
    rw [hf.frame memory k (hk i)]
    exact h.rest k hk

/-- A party has finished and gives its cells back. -/
theorem release (h : Tracks memory serial held done) :
    Tracks memory (done i serial) (Function.update held i ∅) (Function.update done i fun m => m) := by
  refine ⟨?_, ?_, ?_, ?_⟩
  · intro j j' hjj'
    by_cases hj : j = i
    · subst hj
      rw [Function.update_self]
      exact Finset.disjoint_empty_left _
    · rw [Function.update_of_ne hj]
      by_cases hj' : j' = i
      · subst hj'
        rw [Function.update_self]
        exact Finset.disjoint_empty_right _
      · rw [Function.update_of_ne hj']
        exact h.disjoint j j' hjj'
  · intro j
    by_cases hj : j = i
    · subst hj
      rw [Function.update_self, Function.update_self]
      exact ActsOn.id ∅
    · rw [Function.update_of_ne hj, Function.update_of_ne hj]
      exact h.acts j
  · intro j k hk
    by_cases hj : j = i
    · subst hj
      rw [Function.update_self] at hk
      exact absurd hk (Finset.notMem_empty k)
    · rw [Function.update_of_ne hj] at hk ⊢
      -- the cells of the others are not those that have changed
      have hSame : ∀ l ∈ held j, serial l = done i serial l := by
        intro l hl
        exact ((h.acts i).frame serial l (Finset.disjoint_left.mp (h.disjoint j i hj) hl)).symm
      rw [h.running j k hk]
      exact (h.acts j).congr serial (done i serial) hSame k hk
  · intro k hk
    by_cases hki : k ∈ held i
    · exact h.running i k hki
    · rw [(h.acts i).frame serial k hki]
      apply h.rest k
      intro j
      by_cases hj : j = i
      · subst hj
        exact hki
      · have hkj := hk j
        rwa [Function.update_of_ne hj] at hkj

end Tracks

end Foundation.Footprint
