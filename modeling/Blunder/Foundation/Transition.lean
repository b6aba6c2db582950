import Mathlib.Logic.Relation
import Mathlib.Data.Nat.Notation

/-!
# Runs of a labelled step function

A system is a partial function from a state and a label to the next state. The
labels resolve all nondeterminism, so a run is a list of labels and every
interleaving of the parties is one such list. `Reachable` forgets the labels.

* `Reachable.invariant`: a property of the start that every step preserves holds
  of every reachable state.
* `invariant_along`: the same for the runs whose steps all meet a condition.
* `iff_along`: a property that a step loses exactly if it does not meet the condition.
* `length_add_le_of_lowers`: such runs end when each of their steps lowers a measure.
* `countP_add_le_of_lowers`: a run has few of the steps that lower a measure.
* `exists_run_of_progress`: a state that is reached because each step towards it lowers a
  measure.
* `Reachable.simulate`, `Reachable.simulate_of_invariant`: a state map that turns each step of
  one system into a run of another turns runs into runs.
-/

namespace Foundation.Transition

variable {σ τ α β : Type*}

/-- Follow a list of labels. A label that is not enabled stops the run. -/
def run (step : σ → α → Option σ) : σ → List α → Option σ
  | s, [] => some s
  | s, a :: as => (step s a).bind fun s' => run step s' as

/-- Some list of labels leads from the first state to the second. -/
def Reachable (step : σ → α → Option σ) (s t : σ) : Prop := ∃ as, run step s as = some t

/-- Each step of the run meets `P` in the state it is taken from. -/
def Along (step : σ → α → Option σ) (P : σ → α → Prop) : σ → List α → Prop
  | _, [] => True
  | s, a :: as => P s a ∧ ∀ s', step s a = some s' → Along step P s' as

instance (step : σ → α → Option σ) (P : σ → α → Prop) [∀ s a, Decidable (P s a)] :
    ∀ s as, Decidable (Along step P s as)
  | _, [] => inferInstanceAs (Decidable True)
  | s, a :: as =>
    match h : step s a with
    | none => decidable_of_iff (P s a) ⟨fun hP => ⟨hP, fun s' hs' => by cases h.symm.trans hs'⟩, And.left⟩
    | some s' =>
      have := instDecidableAlong step P s' as
      decidable_of_iff (P s a ∧ Along step P s' as)
        ⟨fun hP => ⟨hP.1, fun t ht => by cases h.symm.trans ht; exact hP.2⟩,
          fun hP => ⟨hP.1, hP.2 s' h⟩⟩

variable {step : σ → α → Option σ} {s t u : σ} {a : α} {as bs : List α}

theorem run_cons : run step s (a :: as) = (step s a).bind fun s' => run step s' as := rfl

theorem run_cons_eq_some_iff :
    run step s (a :: as) = some t ↔ ∃ s', step s a = some s' ∧ run step s' as = some t := by
  rw [run_cons, Option.bind_eq_some_iff]

theorem run_append : run step s (as ++ bs) = (run step s as).bind fun s' => run step s' bs := by
  induction as generalizing s with
  | nil => rfl
  | cons a as ih =>
    rw [List.cons_append, run_cons, run_cons, Option.bind_assoc]
    exact congrArg _ (funext fun s' => ih)

/-- A preserved property holds at the end of every run. -/
theorem run_invariant {I : σ → Prop} (hStep : ∀ s a s', I s → step s a = some s' → I s')
    (h : run step s as = some t) (hs : I s) : I t := by
  induction as generalizing s with
  | nil =>
    cases h
    exact hs
  | cons a as ih =>
    obtain ⟨s', hs', hrest⟩ := run_cons_eq_some_iff.mp h
    exact ih hrest (hStep s a s' hs hs')

/-- A property that the steps meeting `P` preserve holds at the end of every run
made of such steps. -/
theorem invariant_along {P : σ → α → Prop} {I : σ → Prop}
    (hStep : ∀ s a s', I s → P s a → step s a = some s' → I s')
    (h : run step s as = some t) (hP : Along step P s as) (hs : I s) : I t := by
  induction as generalizing s with
  | nil =>
    cases h
    exact hs
  | cons a as ih =>
    obtain ⟨s', hs', hrest⟩ := run_cons_eq_some_iff.mp h
    exact ih hrest (hP.2 s' hs') (hStep s a s' hs hP.1 hs')

/-- When a step that is taken keeps `Q` exactly if it meets `P`, and never restores `Q`,
then `Q` holds at the end of exactly the runs whose steps all meet `P`. -/
theorem iff_along {P : σ → α → Prop} {I Q : σ → Prop}
    (hInv : ∀ s a s', I s → step s a = some s' → I s')
    (hStep : ∀ s a s', I s → step s a = some s' → (Q s' ↔ Q s ∧ P s a))
    (h : run step s as = some t) (hs : I s) : Q t ↔ Q s ∧ Along step P s as := by
  induction as generalizing s with
  | nil =>
    cases h
    exact (and_iff_left trivial).symm
  | cons a as ih =>
    obtain ⟨s', hs', hrest⟩ := run_cons_eq_some_iff.mp h
    have hTail : (∀ u, step s a = some u → Along step P u as) ↔ Along step P s' as := by
      simp only [hs', Option.some.injEq, forall_eq']
    rw [ih hrest (hInv s a s' hs hs'), hStep s a s' hs hs', Along, hTail, and_assoc]

/-- A condition on the labels alone joins one on the steps. -/
theorem Along.and_forall {P : σ → α → Prop} {Q : α → Prop} (hP : Along step P s as)
    (hQ : ∀ a ∈ as, Q a) : Along step (fun s a => P s a ∧ Q a) s as := by
  induction as generalizing s with
  | nil => trivial
  | cons a as ih =>
    obtain ⟨hHead, hTail⟩ := List.forall_mem_cons.mp hQ
    exact ⟨⟨hP.1, hHead⟩, fun s' hs' => ih (hP.2 s' hs') hTail⟩

/-- A condition on the labels alone. -/
theorem Along.of_forall {Q : α → Prop} (hQ : ∀ a ∈ as, Q a) :
    Along step (fun _ a => Q a) s as := by
  induction as generalizing s with
  | nil => trivial
  | cons a as ih =>
    obtain ⟨hHead, hTail⟩ := List.forall_mem_cons.mp hQ
    exact ⟨hHead, fun _ _ => ih hTail⟩

/-- When the steps that meet a condition lower a measure, runs of such steps are short. -/
theorem length_add_le_of_lowers {P : σ → α → Prop} {μ : σ → ℕ}
    (hStep : ∀ s a s', P s a → step s a = some s' → μ s' < μ s) (h : run step s as = some t)
    (hP : Along step P s as) : as.length + μ t ≤ μ s := by
  induction as generalizing s with
  | nil =>
    cases h
    exact Nat.le_of_eq (Nat.zero_add _)
  | cons a as ih =>
    obtain ⟨s', hs', hrest⟩ := run_cons_eq_some_iff.mp h
    have hLt := hStep s a s' hP.1 hs'
    have hLe := ih hrest (hP.2 s' hs')
    rw [List.length_cons]
    omega

/-- When the marked steps lower a measure and the others do not raise it, a run has few marked
steps. -/
theorem countP_add_le_of_lowers {I : σ → Prop} {A : α → Prop} (b : α → Bool) (μ : σ → ℕ)
    (hInv : ∀ s a s', I s → A a → step s a = some s' → I s')
    (hStep : ∀ s a s', I s → A a → step s a = some s' → μ s' + (if b a then 1 else 0) ≤ μ s)
    (h : run step s as = some t) (hs : I s) (hA : ∀ a ∈ as, A a) : as.countP b + μ t ≤ μ s := by
  induction as generalizing s with
  | nil =>
    cases h
    exact Nat.le_of_eq (Nat.zero_add _)
  | cons a as ih =>
    obtain ⟨s', hs', hrest⟩ := run_cons_eq_some_iff.mp h
    obtain ⟨ha, hRest⟩ := List.forall_mem_cons.mp hA
    have hHead := hStep s a s' hs ha hs'
    have hTail := ih hrest (hInv s a s' hs ha hs') hRest
    rw [List.countP_cons]
    omega

/-- With steps whose labels meet a condition, a system that makes progress by such steps
as long as `Q` fails gets to `Q`. -/
theorem exists_run_of_progress {A : α → Prop} {P Q : σ → Prop} {μ : σ → ℕ}
    (hStep : ∀ s, P s → Q s ∨ ∃ a s', A a ∧ step s a = some s' ∧ P s' ∧ μ s' < μ s) (hs : P s) :
    ∃ as t, run step s as = some t ∧ (∀ a ∈ as, A a) ∧ P t ∧ Q t := by
  induction hMeasure : μ s using Nat.strongRecOn generalizing s with
  | _ n ih =>
    subst hMeasure
    rcases hStep s hs with hDone | ⟨a, s', ha, hNext, hs', hLt⟩
    · refine ⟨[], s, rfl, ?_, hs, hDone⟩
      intro a ha
      cases ha
    · obtain ⟨as, t, hRun, has, ht⟩ := ih (μ s') hLt hs' rfl
      exact ⟨a :: as, t, run_cons_eq_some_iff.mpr ⟨s', hNext, hRun⟩,
        List.forall_mem_cons.mpr ⟨ha, has⟩, ht⟩

namespace Reachable

theorem refl (s : σ) : Reachable step s s := ⟨[], rfl⟩

theorem single (h : step s a = some t) : Reachable step s t :=
  ⟨[a], by rw [run_cons, h]; rfl⟩

theorem trans (hst : Reachable step s t) (htu : Reachable step t u) : Reachable step s u := by
  obtain ⟨as, has⟩ := hst
  obtain ⟨bs, hbs⟩ := htu
  exact ⟨as ++ bs, by rw [run_append, has]; exact hbs⟩

theorem invariant {I : σ → Prop} (hStep : ∀ s a s', I s → step s a = some s' → I s')
    (hs : I s) (h : Reachable step s t) : I t := by
  obtain ⟨as, has⟩ := h
  exact run_invariant hStep has hs

/-- A system that makes progress as long as `Q` fails gets to `Q`. -/
theorem exists_of_progress {P Q : σ → Prop} {μ : σ → ℕ}
    (hStep : ∀ s, P s → Q s ∨ ∃ a s', step s a = some s' ∧ P s' ∧ μ s' < μ s) (hs : P s) :
    ∃ t, Reachable step s t ∧ P t ∧ Q t := by
  have hLabels : ∀ s, P s → Q s ∨ ∃ a s', True ∧ step s a = some s' ∧ P s' ∧ μ s' < μ s := by
    intro s hs
    rcases hStep s hs with hDone | ⟨a, s', hNext⟩
    · exact Or.inl hDone
    · exact Or.inr ⟨a, s', trivial, hNext⟩
  obtain ⟨as, t, hRun, -, ht⟩ := exists_run_of_progress hLabels hs
  exact ⟨t, ⟨as, hRun⟩, ht⟩

/-- A state map under which each step of the first system is a run of the second
maps reachable states to reachable states. -/
theorem simulate {step' : τ → β → Option τ} (f : σ → τ)
    (hStep : ∀ s a s', step s a = some s' → Reachable step' (f s) (f s'))
    (h : Reachable step s t) : Reachable step' (f s) (f t) := by
  obtain ⟨as, has⟩ := h
  exact run_invariant (I := fun x => Reachable step' (f s) (f x))
    (fun x a x' hx hxx' => hx.trans (hStep x a x' hxx')) has (refl _)

/-- The same when the steps are simulated only where an invariant holds. -/
theorem simulate_of_invariant {step' : τ → β → Option τ} {I : σ → Prop} (f : σ → τ)
    (hInv : ∀ s a s', I s → step s a = some s' → I s')
    (hStep : ∀ s a s', I s → step s a = some s' → Reachable step' (f s) (f s')) (hs : I s)
    (h : Reachable step s t) : Reachable step' (f s) (f t) := by
  have hBoth : I t ∧ Reachable step' (f s) (f t) := by
    refine h.invariant (I := fun x => I x ∧ Reachable step' (f s) (f x)) ?_ ⟨hs, refl _⟩
    intro x a x' hx hNext
    exact ⟨hInv x a x' hx.1 hNext, hx.2.trans (hStep x a x' hx.1 hNext)⟩
  exact hBoth.2

end Reachable

end Foundation.Transition
