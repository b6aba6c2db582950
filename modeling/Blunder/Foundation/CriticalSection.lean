import Blunder.Foundation.Transition
import Mathlib.Data.Finset.Max
import Mathlib.Data.Fintype.Pi
import Mathlib.Data.List.Infix
import Mathlib.Logic.Function.Basic

/-!
# Calls under readers-writer locks

An object has tables, and a readers-writer lock for each of them. A call first takes the locks
of all tables that it uses, one after another by increasing rank; then its body runs step by
step, and in the end the call gives the locks back. Any number of threads make calls.

Such calls take effect at once, in the order in which their bodies end: `serial` is what the
ended bodies have made of the tables one after another.

* `Program.Effect`: what a body does when it runs alone.
* `step_inv`: the tables are those of `serial`, apart from what the running bodies have done.
* `Inv.replays`, `Inv.once`: the calls are those of a serial execution in which each call has
  its place between its begin and its return.
* `progress`, `countP_isProceed_le`: the threads cannot block each other for ever.
-/

namespace Foundation.CriticalSection

open Foundation.Transition

variable {ι θ κ ρ : Type} {τ : ι → Type} {loc : κ → Type}

/-! ## Programs -/

/-- The calls of an object. `next` is the next step of a body, or its result.
* `frame`: a body changes only tables that it has locked for writing.
* `congr`: a body depends only on tables that it has locked. -/
structure Program (τ : ι → Type) (κ : Type) (loc : κ → Type) (ρ : Type) where
  rank : ι → ℕ
  locks : κ → List ι
  exclusive : κ → ι → Bool
  start : ∀ call, loc call
  next : ∀ call, loc call → (∀ i, τ i) → loc call × (∀ i, τ i) ⊕ ρ
  stepsLeft : ∀ call, loc call → ℕ
  sorted : ∀ call, (locks call).Pairwise fun i j => rank i < rank j
  frame : ∀ call l m l' m', next call l m = .inl (l', m') →
    ∀ i, ¬ (i ∈ locks call ∧ exclusive call i = true) → m' i = m i
  congr_step : ∀ call l m l' m' n, next call l m = .inl (l', m') →
    (∀ i ∈ locks call, m i = n i) →
      ∃ n', next call l n = .inl (l', n') ∧ ∀ i ∈ locks call, m' i = n' i
  congr_result : ∀ call l m r n, next call l m = .inr r → (∀ i ∈ locks call, m i = n i) →
    next call l n = .inr r
  lowers : ∀ call l m l' m', next call l m = .inl (l', m') → stepsLeft call l' < stepsLeft call l

namespace Program

variable (p : Program τ κ loc ρ)

/-- The body can write the table. -/
def Writes (call : κ) (i : ι) : Prop := i ∈ p.locks call ∧ p.exclusive call i = true

/-- A body that runs alone gets from its start to this point. -/
inductive Body (call : κ) (m : ∀ i, τ i) : loc call → (∀ i, τ i) → Prop
  | start : Body call m (p.start call) m
  | next {l m' l' m''} (h : Body call m l m') (hNext : p.next call l m' = .inl (l', m'')) :
    Body call m l' m''

/-- What a body that runs alone does to the tables, and its result. -/
def Effect (call : κ) (m m' : ∀ i, τ i) (r : ρ) : Prop :=
  ∃ l, p.Body call m l m' ∧ p.next call l m' = .inr r

variable {p}

theorem Body.frame {call : κ} {m m' : ∀ i, τ i} {l : loc call} (h : p.Body call m l m') {i : ι}
    (hi : ¬ p.Writes call i) : m' i = m i := by
  induction h with
  | start => rfl
  | next _ hNext ih => exact (p.frame _ _ _ _ _ hNext i hi).trans ih

/-- A body does the same from tables that agree on what it has locked. -/
theorem Body.congr {call : κ} {m m' n : ∀ i, τ i} {l : loc call} (h : p.Body call m l m')
    (hAgree : ∀ i ∈ p.locks call, m i = n i) :
    ∃ n', p.Body call n l n' ∧ ∀ i ∈ p.locks call, m' i = n' i := by
  induction h with
  | start => exact ⟨n, Body.start, hAgree⟩
  | next _ hNext ih =>
    obtain ⟨n', hBody, hSame⟩ := ih
    obtain ⟨n'', hStep, hAfter⟩ := p.congr_step _ _ _ _ _ n' hNext hSame
    exact ⟨n'', hBody.next hStep, hAfter⟩

end Program

/-! ## Threads -/

/-- The point that the call of a thread has reached. -/
inductive Pc (ι κ : Type) (loc : κ → Type) (ρ : Type)
  | idle
  | locking (call : κ) (taken todo : List ι)
  | running (call : κ) (body : loc call)
  | unlocking (call : κ) (result : ρ) (todo : List ι)
  | returned (call : κ) (result : ρ)

/-- A body that has ended. -/
structure Entry (θ κ ρ : Type) where
  thread : θ
  call : κ
  result : ρ

/-- `history` are the bodies that have ended, `serial` is what they have made of the tables, and
`since` is how many there were when a thread began its call. -/
structure State (τ : ι → Type) (θ κ : Type) (loc : κ → Type) (ρ : Type) where
  tables : ∀ i, τ i
  threads : θ → Pc ι κ loc ρ
  history : List (Entry θ κ ρ)
  serial : ∀ i, τ i
  since : θ → ℕ

namespace Pc

variable (p : Program τ κ loc ρ)

/-- The locks that a thread holds. -/
def held : Pc ι κ loc ρ → List ι
  | .locking _ taken _ => taken
  | .running call _ => p.locks call
  | .unlocking _ _ todo => todo
  | _ => []

/-- The thread holds its lock of the table for writing. -/
def writes : Pc ι κ loc ρ → ι → Bool
  | .locking call _ _ => p.exclusive call
  | .running call _ => p.exclusive call
  | .unlocking call _ _ => p.exclusive call
  | _ => fun _ => false

/-- The body that the thread has ended in its call. -/
def ended (t : θ) : Pc ι κ loc ρ → Option (List (Entry θ κ ρ))
  | .idle => none
  | .unlocking call result _ => some [⟨t, call, result⟩]
  | .returned call result => some [⟨t, call, result⟩]
  | _ => some []

/-- The steps that the thread has left in its call at most. -/
def stepsLeft : Pc ι κ loc ρ → ℕ
  | .locking call _ todo =>
    todo.length + (p.stepsLeft call (p.start call) + ((p.locks call).length + 3))
  | .running call l => p.stepsLeft call l + ((p.locks call).length + 2)
  | .unlocking _ _ todo => todo.length + 1
  | _ => 0

/-- The thread is in a call. -/
def inCall : Pc ι κ loc ρ → Bool
  | .idle => false
  | .returned _ _ => false
  | _ => true

/-- The lock that the thread is about to take. -/
def wants : Pc ι κ loc ρ → Option ι
  | .locking _ _ (i :: _) => some i
  | _ => none

end Pc

variable [DecidableEq θ]

namespace State

section Steps

variable [DecidableEq ι] [Fintype θ]

def init (m : ∀ i, τ i) : State τ θ κ loc ρ := ⟨m, fun _ => .idle, [], m, fun _ => 0⟩

def goto (s : State τ θ κ loc ρ) (t : θ) (pc : Pc ι κ loc ρ) : State τ θ κ loc ρ :=
  { s with threads := Function.update s.threads t pc }

/-- Readers share a lock, a writer has it alone. -/
def Available (p : Program τ κ loc ρ) (s : State τ θ κ loc ρ) (t : θ) (call : κ) (i : ι) : Prop :=
  ∀ u, u ≠ t → i ∈ (s.threads u).held p →
    p.exclusive call i = false ∧ (s.threads u).writes p i = false

instance (p : Program τ κ loc ρ) (s : State τ θ κ loc ρ) (t : θ) (call : κ) (i : ι) :
    Decidable (s.Available p t call i) :=
  inferInstanceAs (Decidable (∀ u, u ≠ t → i ∈ (s.threads u).held p →
    p.exclusive call i = false ∧ (s.threads u).writes p i = false))

/-- The tables that the body has written come from `tables`. -/
def commit (p : Program τ κ loc ρ) (call : κ) (tables serial : ∀ i, τ i) : ∀ i, τ i :=
  fun i => if i ∈ p.locks call ∧ p.exclusive call i = true then tables i else serial i

/-- The next step of the call of a thread. -/
def proceed (p : Program τ κ loc ρ) (s : State τ θ κ loc ρ) (t : θ) :
    Option (State τ θ κ loc ρ) :=
  match s.threads t with
  | .locking call taken (i :: todo) =>
    if s.Available p t call i then some (s.goto t (.locking call (taken ++ [i]) todo)) else none
  | .locking call _ [] => some (s.goto t (.running call (p.start call)))
  | .running call l =>
    match p.next call l s.tables with
    | .inl (l, tables) => some { s.goto t (.running call l) with tables }
    | .inr result =>
      some { s.goto t (.unlocking call result (p.locks call).reverse) with
        history := s.history ++ [⟨t, call, result⟩]
        serial := commit p call s.tables s.serial }
  | .unlocking call result (_ :: todo) => some (s.goto t (.unlocking call result todo))
  | .unlocking call result [] => some (s.goto t (.returned call result))
  | _ => none

inductive Act (θ κ : Type)
  | call (t : θ) (call : κ)
  | proceed (t : θ)
  | take (t : θ)

/-- A thread begins a call, goes on with it, or takes its result. -/
def step (p : Program τ κ loc ρ) (s : State τ θ κ loc ρ) : Act θ κ → Option (State τ θ κ loc ρ)
  | .call t call =>
    match s.threads t with
    | .idle =>
      some { s.goto t (.locking call [] (p.locks call)) with
        since := Function.update s.since t s.history.length }
    | _ => none
  | .proceed t => s.proceed p t
  | .take t =>
    match s.threads t with
    | .returned _ _ => some (s.goto t .idle)
    | _ => none

/-- What a step does. -/
inductive Step (p : Program τ κ loc ρ) (s : State τ θ κ loc ρ) :
    Act θ κ → State τ θ κ loc ρ → Prop
  | call {t call} (hPc : s.threads t = .idle) :
    Step p s (.call t call) { s.goto t (.locking call [] (p.locks call)) with
      since := Function.update s.since t s.history.length }
  | lock {t call taken i todo} (hPc : s.threads t = .locking call taken (i :: todo))
      (hFree : s.Available p t call i) :
    Step p s (.proceed t) (s.goto t (.locking call (taken ++ [i]) todo))
  | start {t call taken} (hPc : s.threads t = .locking call taken []) :
    Step p s (.proceed t) (s.goto t (.running call (p.start call)))
  | body {t call l l' tables} (hPc : s.threads t = .running call l)
      (hNext : p.next call l s.tables = .inl (l', tables)) :
    Step p s (.proceed t) { s.goto t (.running call l') with tables }
  | finish {t call l result} (hPc : s.threads t = .running call l)
      (hNext : p.next call l s.tables = .inr result) :
    Step p s (.proceed t) { s.goto t (.unlocking call result (p.locks call).reverse) with
      history := s.history ++ [⟨t, call, result⟩]
      serial := commit p call s.tables s.serial }
  | unlock {t call result i todo} (hPc : s.threads t = .unlocking call result (i :: todo)) :
    Step p s (.proceed t) (s.goto t (.unlocking call result todo))
  | leave {t call result} (hPc : s.threads t = .unlocking call result []) :
    Step p s (.proceed t) (s.goto t (.returned call result))
  | take {t call result} (hPc : s.threads t = .returned call result) :
    Step p s (.take t) (s.goto t .idle)

variable {p : Program τ κ loc ρ} {s s' : State τ θ κ loc ρ} {act : Act θ κ} {t u : θ}
  {pc : Pc ι κ loc ρ}

theorem step_cases (h : step p s act = some s') : Step p s act s' := by
  cases act with
  | call t call =>
    rw [step] at h
    split at h
    · rename_i hPc
      cases h
      exact .call hPc
    · cases h
  | proceed t =>
    rw [step, proceed] at h
    split at h
    · rename_i hPc
      obtain ⟨hFree, hNext⟩ := Option.ite_none_right_eq_some.mp h
      cases hNext
      exact .lock hPc hFree
    · rename_i hPc
      cases h
      exact .start hPc
    · rename_i hPc
      split at h
      · rename_i hNext
        cases h
        exact .body hPc hNext
      · rename_i hNext
        cases h
        exact .finish hPc hNext
    · rename_i hPc
      cases h
      exact .unlock hPc
    · rename_i hPc
      cases h
      exact .leave hPc
    · cases h
  | take t =>
    rw [step] at h
    split at h
    · rename_i hPc
      cases h
      exact .take hPc
    · cases h

end Steps

end State

/-! ## The invariant -/

/-- The ended bodies, one after another. -/
inductive Replays (p : Program τ κ loc ρ) (m : ∀ i, τ i) : List (Entry θ κ ρ) → (∀ i, τ i) → Prop
  | nil : Replays p m [] m
  | concat {history m' m''} {e : Entry θ κ ρ} (h : Replays p m history m')
    (hEffect : p.Effect e.call m' m'' e.result) : Replays p m (history ++ [e]) m''

namespace Pc

/-- The locks of the call are those that it has taken and those that it will take. -/
def Taken (p : Program τ κ loc ρ) : Pc ι κ loc ρ → Prop
  | .locking call taken todo => taken ++ todo = p.locks call
  | _ => True

/-- On the tables that it has locked a body has got as far as it would alone. -/
def Undisturbed (p : Program τ κ loc ρ) (serial tables : ∀ i, τ i) : Pc ι κ loc ρ → Prop
  | .running call l => ∃ m, p.Body call serial l m ∧ ∀ i ∈ p.locks call, m i = tables i
  | _ => True

/-- A body is running that can write the table. -/
def Writing (p : Program τ κ loc ρ) (i : ι) : Pc ι κ loc ρ → Prop
  | .running call _ => p.Writes call i
  | _ => False

/-- The threads hold no lock together, unless both read. -/
def Compatible (p : Program τ κ loc ρ) (pc pc' : Pc ι κ loc ρ) : Prop :=
  ∀ i ∈ pc.held p, i ∈ pc'.held p → pc.writes p i = false ∧ pc'.writes p i = false

variable {p : Program τ κ loc ρ} {pc pc' : Pc ι κ loc ρ}

theorem Compatible.symm (h : Compatible p pc pc') : Compatible p pc' pc :=
  fun i hi hi' => (h i hi' hi).symm

/-- A running body has locked what it can write. -/
theorem Writing.held {i : ι} (h : pc.Writing p i) : i ∈ pc.held p ∧ pc.writes p i = true := by
  cases pc with
  | running call l => exact h
  | _ => cases h

theorem inCall_of_held {i : ι} (h : i ∈ pc.held p) : pc.inCall = true := by
  cases pc with
  | idle => cases h
  | returned call result => cases h
  | _ => rfl

end Pc

/-- The bodies that a thread has ended since it began its call. -/
def State.ownEntries (s : State τ θ κ loc ρ) (t : θ) : List (Entry θ κ ρ) :=
  (s.history.drop (s.since t)).filter fun e => e.thread = t

/-- What holds in every run. -/
structure Inv (p : Program τ κ loc ρ) (m : ∀ i, τ i) (s : State τ θ κ loc ρ) : Prop where
  taken : ∀ t, (s.threads t).Taken p
  compatible : ∀ t u, t ≠ u → (s.threads t).Compatible p (s.threads u)
  undisturbed : ∀ t, (s.threads t).Undisturbed p s.serial s.tables
  rest : ∀ i, (∀ t, ¬ (s.threads t).Writing p i) → s.tables i = s.serial i
  replays : Replays p m s.history s.serial
  since_le : ∀ t, s.since t ≤ s.history.length
  once : ∀ t entries, (s.threads t).ended t = some entries → s.ownEntries t = entries

namespace State

variable {p : Program τ κ loc ρ} {m : ∀ i, τ i} {s s' : State τ θ κ loc ρ} {act : Act θ κ}
  {t u : θ} {pc : Pc ι κ loc ρ}

theorem goto_threads_self : (s.goto t pc).threads t = pc := Function.update_self ..

theorem goto_threads_of_ne (h : u ≠ t) : (s.goto t pc).threads u = s.threads u :=
  Function.update_of_ne h _ _

theorem forall_goto {P : θ → Pc ι κ loc ρ → Prop} (hSelf : P t pc)
    (hOthers : ∀ u, u ≠ t → P u (s.threads u)) : ∀ u, P u ((s.goto t pc).threads u) :=
  (Function.forall_update_iff s.threads P).mpr ⟨hSelf, hOthers⟩

theorem compatible_goto (hs : Inv p m s)
    (hCompatible : ∀ u, u ≠ t → pc.Compatible p (s.threads u)) :
    ∀ u v, u ≠ v → ((s.goto t pc).threads u).Compatible p ((s.goto t pc).threads v) := by
  intro u v huv
  by_cases hu : u = t
  · subst hu
    rw [goto_threads_self, goto_threads_of_ne huv.symm]
    exact hCompatible v huv.symm
  · rw [goto_threads_of_ne hu]
    by_cases hv : v = t
    · subst hv
      rw [goto_threads_self]
      exact (hCompatible u huv).symm
    · rw [goto_threads_of_ne hv]
      exact hs.compatible u v huv

/-- A thread that gives locks back stays compatible. -/
theorem compatible_of_subset (hs : Inv p m s) (hHeld : pc.held p ⊆ (s.threads t).held p)
    (hWrites : ∀ i ∈ pc.held p, pc.writes p i = (s.threads t).writes p i) :
    ∀ u, u ≠ t → pc.Compatible p (s.threads u) := by
  intro u hu i hi hi'
  rw [hWrites i hi]
  exact hs.compatible t u hu.symm i (hHeld hi) hi'

/-- A step between two bodies. -/
theorem goto_inv (hs : Inv p m s) (hTaken : pc.Taken p)
    (hCompatible : ∀ u, u ≠ t → pc.Compatible p (s.threads u))
    (hUndisturbed : pc.Undisturbed p s.serial s.tables)
    (hWriting : ∀ i, ¬ (s.threads t).Writing p i)
    (hOnce : ∀ entries, pc.ended t = some entries → s.ownEntries t = entries) :
    Inv p m (s.goto t pc) where
  taken := forall_goto (P := fun _ pc => pc.Taken p) hTaken fun u _ => hs.taken u
  compatible := compatible_goto hs hCompatible
  undisturbed := forall_goto (P := fun _ pc => pc.Undisturbed p s.serial s.tables) hUndisturbed
    fun u _ => hs.undisturbed u
  rest i hi := by
    apply hs.rest i
    intro u
    by_cases hu : u = t
    · subst hu
      exact hWriting i
    · have hNot := hi u
      rwa [goto_threads_of_ne hu] at hNot
  replays := hs.replays
  since_le := hs.since_le
  once := forall_goto
    (P := fun u pc => ∀ entries, pc.ended u = some entries → s.ownEntries u = entries) hOnce
    fun u _ => hs.once u

theorem call_inv (hs : Inv p m s) (hPc : s.threads t = .idle) {call : κ} :
    Inv p m { s.goto t (.locking call [] (p.locks call)) with
      since := Function.update s.since t s.history.length } := by
  have hWriting : ∀ i, ¬ (s.threads t).Writing p i := by
    intro i
    rw [hPc]
    exact id
  refine ⟨?_, ?_, ?_, ?_, hs.replays, ?_, ?_⟩
  · exact forall_goto (P := fun _ pc => pc.Taken p) rfl fun u _ => hs.taken u
  · refine compatible_goto hs ?_
    intro u _ i hi
    cases hi
  · exact forall_goto (P := fun _ pc => pc.Undisturbed p s.serial s.tables) trivial
      fun u _ => hs.undisturbed u
  · intro i hi
    apply hs.rest i
    intro u
    by_cases hu : u = t
    · subst hu
      exact hWriting i
    · have hNot := hi u
      exact fun hOld => hNot ((goto_threads_of_ne hu).symm ▸ hOld)
  · intro u
    by_cases hu : u = t
    · subst hu
      exact (Function.update_self u s.history.length s.since).le
    · exact (Function.update_of_ne hu s.history.length s.since).le.trans (hs.since_le u)
  · intro u entries hEnded
    by_cases hu : u = t
    · subst hu
      have hNone : entries = [] := by
        rw [show (State.threads _ u) = _ from goto_threads_self] at hEnded
        cases hEnded
        rfl
      simp [ownEntries, hNone, goto]
    · have hOwn := hs.once u entries
      rw [show (State.threads _ u) = _ from goto_threads_of_ne hu] at hEnded
      rw [← hOwn hEnded, ownEntries, ownEntries]
      simp [goto, Function.update_of_ne hu]

theorem lock_inv (hs : Inv p m s) {call : κ} {taken todo : List ι} {i : ι}
    (hPc : s.threads t = .locking call taken (i :: todo)) (hFree : s.Available p t call i) :
    Inv p m (s.goto t (.locking call (taken ++ [i]) todo)) := by
  have hTaken := hs.taken t
  have hOnce := hs.once t
  rw [hPc] at hTaken hOnce
  refine goto_inv hs ?_ ?_ trivial ?_ hOnce
  · rw [Pc.Taken, List.append_assoc]
    exact hTaken
  · intro u hu j hj hj'
    rcases List.mem_append.mp hj with hOld | hNew
    · have hCompatible := hs.compatible t u hu.symm
      rw [hPc] at hCompatible
      exact hCompatible j hOld hj'
    · obtain rfl := List.mem_singleton.mp hNew
      exact hFree u hu hj'
  · intro j
    rw [hPc]
    exact id

/-- A body begins on tables that nobody writes. -/
theorem start_inv (hs : Inv p m s) {call : κ} {taken : List ι}
    (hPc : s.threads t = .locking call taken []) :
    Inv p m (s.goto t (.running call (p.start call))) := by
  have hTaken := hs.taken t
  have hOnce := hs.once t
  have hCompatible := hs.compatible t
  rw [hPc] at hTaken hOnce hCompatible
  rw [Pc.Taken, List.append_nil] at hTaken
  subst hTaken
  refine goto_inv hs trivial ?_ ?_ ?_ hOnce
  · intro u hu
    exact hCompatible u hu.symm
  · refine ⟨s.serial, Program.Body.start, ?_⟩
    intro i hi
    apply (hs.rest i ?_).symm
    intro u hWriting
    obtain ⟨hHeld, hWrites⟩ := hWriting.held
    by_cases hu : u = t
    · subst hu
      rw [hPc] at hWriting
      exact hWriting
    · have hShared := (hCompatible u (Ne.symm hu) i hi hHeld).2
      rw [hWrites] at hShared
      cases hShared
  · intro j
    rw [hPc]
    exact id

/-- What one thread writes no other one has locked. -/
theorem notMem_locks_of_writes (hs : Inv p m s) {call call' : κ} {l : loc call} {l' : loc call'}
    (hPc : s.threads t = .running call l) (hPc' : s.threads u = .running call' l') (hu : u ≠ t)
    {i : ι} (hi : i ∈ p.locks call') : ¬ p.Writes call i := by
  rintro ⟨hLocked, hWrites⟩
  have hCompatible := hs.compatible t u hu.symm
  rw [hPc, hPc'] at hCompatible
  have hShared := (hCompatible i hLocked hi).1
  rw [Pc.writes, hWrites] at hShared
  cases hShared

theorem body_inv (hs : Inv p m s) {call : κ} {l l' : loc call} {tables : ∀ i, τ i}
    (hPc : s.threads t = .running call l) (hNext : p.next call l s.tables = .inl (l', tables)) :
    Inv p m { s.goto t (.running call l') with tables } := by
  have hOnce := hs.once t
  have hUndisturbed := hs.undisturbed t
  rw [hPc] at hOnce hUndisturbed
  obtain ⟨alone, hBody, hSame⟩ := hUndisturbed
  refine ⟨?_, ?_, ?_, ?_, hs.replays, hs.since_le, ?_⟩
  · exact forall_goto (P := fun _ pc => pc.Taken p) trivial fun u _ => hs.taken u
  · refine compatible_goto hs (compatible_of_subset hs ?_ ?_)
    · rw [hPc]
      exact List.Subset.refl _
    · intro i _
      rw [hPc]
      rfl
  · refine forall_goto (P := fun _ pc => pc.Undisturbed p s.serial tables) ?_ ?_
    · obtain ⟨alone', hStep, hAfter⟩ := p.congr_step call l s.tables l' tables alone hNext
        fun i hi => (hSame i hi).symm
      exact ⟨alone', hBody.next hStep, fun i hi => (hAfter i hi).symm⟩
    · intro u hu
      have hOther := hs.undisturbed u
      cases hPcU : s.threads u with
      | running call' other =>
        rw [hPcU] at hOther
        obtain ⟨alone', hBody', hSame'⟩ := hOther
        refine ⟨alone', hBody', ?_⟩
        intro i hi
        rw [p.frame call l s.tables l' tables hNext i
          (notMem_locks_of_writes hs hPc hPcU hu hi)]
        exact hSame' i hi
      | _ => trivial
  · intro i hi
    have hNot : ¬ p.Writes call i := by
      have hSelf := hi t
      rwa [show (State.threads _ t) = _ from goto_threads_self] at hSelf
    refine (p.frame call l s.tables l' tables hNext i hNot).trans (hs.rest i ?_)
    intro u
    by_cases hu : u = t
    · subst hu
      rw [hPc]
      exact hNot
    · have hOther := hi u
      rwa [show (State.threads _ u) = _ from goto_threads_of_ne hu] at hOther
  · exact forall_goto
      (P := fun u pc => ∀ entries, pc.ended u = some entries → s.ownEntries u = entries) hOnce
      fun u _ => hs.once u

theorem init_inv (m : ∀ i, τ i) : Inv p m (init m : State τ θ κ loc ρ) where
  taken _ := trivial
  compatible _ _ _ i hi := by cases hi
  undisturbed _ := trivial
  rest _ _ := rfl
  replays := .nil
  since_le _ := le_rfl
  once _ _ h := by cases h

/-- The rank of the lock that a thread waits for. -/
def waitingRank (p : Program τ κ loc ρ) (s : State τ θ κ loc ρ) (t : θ) : ℕ :=
  match (s.threads t).wants with
  | some i => p.rank i + 1
  | none => 0

/-- Who waits for a lock holds only locks of lower rank. -/
theorem rank_lt_of_held (hs : Inv p m s) {i j : ι} (hHeld : i ∈ (s.threads t).held p)
    (hWants : (s.threads t).wants = some j) : p.rank i < p.rank j := by
  have hTaken := hs.taken t
  cases hPc : s.threads t with
  | locking call taken todo =>
    cases todo with
    | nil =>
      rw [hPc] at hWants
      cases hWants
    | cons k todo =>
      rw [hPc] at hWants hHeld hTaken
      cases hWants
      have hSorted := p.sorted call
      rw [← show taken ++ j :: todo = p.locks call from hTaken] at hSorted
      exact (List.pairwise_append.mp hSorted).2.2 i hHeld j List.mem_cons_self
  | _ =>
    rw [hPc] at hWants
    cases hWants

section Finish

variable [DecidableEq ι]

theorem commit_of_writes {call : κ} {tables serial : ∀ i, τ i} {i : ι} (hi : p.Writes call i) :
    commit p call tables serial i = tables i :=
  if_pos hi

theorem commit_of_not {call : κ} {tables serial : ∀ i, τ i} {i : ι} (hi : ¬ p.Writes call i) :
    commit p call tables serial i = serial i :=
  if_neg hi

/-- A body that ends has had the effect that it has alone. -/
theorem effect_of_finish (hs : Inv p m s) {call : κ} {l : loc call} {result : ρ}
    (hPc : s.threads t = .running call l) (hNext : p.next call l s.tables = .inr result) :
    p.Effect call s.serial (commit p call s.tables s.serial) result := by
  have hUndisturbed := hs.undisturbed t
  rw [hPc] at hUndisturbed
  obtain ⟨alone, hBody, hSame⟩ := hUndisturbed
  have hCommit : commit p call s.tables s.serial = alone := by
    funext i
    by_cases hi : p.Writes call i
    · rw [commit_of_writes hi, hSame i hi.1]
    · rw [commit_of_not hi, hBody.frame hi]
  rw [hCommit]
  exact ⟨l, hBody, p.congr_result call l s.tables result alone hNext fun i hi => (hSame i hi).symm⟩

theorem finish_inv (hs : Inv p m s) {call : κ} {l : loc call} {result : ρ}
    (hPc : s.threads t = .running call l) (hNext : p.next call l s.tables = .inr result) :
    Inv p m { s.goto t (.unlocking call result (p.locks call).reverse) with
      history := s.history ++ [⟨t, call, result⟩]
      serial := commit p call s.tables s.serial } := by
  refine ⟨?_, ?_, ?_, ?_, hs.replays.concat (effect_of_finish hs hPc hNext), ?_, ?_⟩
  · exact forall_goto (P := fun _ pc => pc.Taken p) trivial fun u _ => hs.taken u
  · refine compatible_goto hs (compatible_of_subset hs ?_ ?_)
    · rw [hPc]
      exact fun i hi => List.mem_reverse.mp hi
    · intro i _
      rw [hPc]
      rfl
  · refine forall_goto
      (P := fun _ pc => pc.Undisturbed p (commit p call s.tables s.serial) s.tables) trivial ?_
    intro u hu
    have hOther := hs.undisturbed u
    cases hPcU : s.threads u with
    | running call' other =>
      rw [hPcU] at hOther
      obtain ⟨alone, hBody, hSame⟩ := hOther
      have hAgree : ∀ i ∈ p.locks call', s.serial i = commit p call s.tables s.serial i :=
        fun i hi => (commit_of_not (notMem_locks_of_writes hs hPc hPcU hu hi)).symm
      obtain ⟨alone', hBody', hSame'⟩ := hBody.congr hAgree
      exact ⟨alone', hBody', fun i hi => (hSame' i hi).symm.trans (hSame i hi)⟩
    | _ => trivial
  · intro i hi
    by_cases hWrites : p.Writes call i
    · exact (commit_of_writes hWrites).symm
    · refine (hs.rest i ?_).trans (commit_of_not hWrites).symm
      intro u
      by_cases hu : u = t
      · subst hu
        rw [hPc]
        exact hWrites
      · have hOther := hi u
        rwa [show (State.threads _ u) = _ from goto_threads_of_ne hu] at hOther
  · intro u
    rw [List.length_append]
    exact (hs.since_le u).trans (Nat.le_add_right _ _)
  · have hOwn : ∀ u, State.ownEntries
      { s.goto t (.unlocking call result (p.locks call).reverse) with
        history := s.history ++ [⟨t, call, result⟩]
        serial := commit p call s.tables s.serial } u =
          s.ownEntries u ++ [(⟨t, call, result⟩ : Entry θ κ ρ)].filter fun e => e.thread = u := by
      intro u
      rw [ownEntries, ownEntries, ← List.filter_append]
      exact congrArg _ (List.drop_append_of_le_length (hs.since_le u))
    intro u entries hEnded
    rw [hOwn]
    by_cases hu : u = t
    · subst hu
      have hNone : s.ownEntries u = [] := hs.once u [] (by rw [hPc]; rfl)
      rw [show (State.threads _ u) = _ from goto_threads_self] at hEnded
      cases hEnded
      rw [hNone]
      simp
    · rw [show (State.threads _ u) = _ from goto_threads_of_ne hu] at hEnded
      rw [hs.once u entries hEnded]
      simp [Ne.symm hu]

theorem step_inv [Fintype θ] (hs : Inv p m s) (h : step p s act = some s') : Inv p m s' := by
  cases step_cases h with
  | call hPc => exact call_inv hs hPc
  | lock hPc hFree => exact lock_inv hs hPc hFree
  | start hPc => exact start_inv hs hPc
  | body hPc hNext => exact body_inv hs hPc hNext
  | finish hPc hNext => exact finish_inv hs hPc hNext
  | @unlock t call result i todo hPc =>
    have hOnce := hs.once t
    rw [hPc] at hOnce
    refine goto_inv hs trivial (compatible_of_subset hs ?_ ?_) trivial ?_ hOnce
    · rw [hPc]
      exact List.subset_cons_self _ _
    · intro j _
      rw [hPc]
      rfl
    · intro j
      rw [hPc]
      exact id
  | @leave t call result hPc =>
    have hOnce := hs.once t
    rw [hPc] at hOnce
    refine goto_inv hs trivial (compatible_of_subset hs (List.nil_subset _) ?_) trivial ?_ hOnce
    · intro j hj
      cases hj
    · intro j
      rw [hPc]
      exact id
  | @take t call result hPc =>
    refine goto_inv hs trivial (compatible_of_subset hs (List.nil_subset _) ?_) trivial ?_ ?_
    · intro j hj
      cases hj
    · intro j
      rw [hPc]
      exact id
    · intro entries hEnded
      cases hEnded

theorem reachable_inv [Fintype θ] (h : Reachable (step p) (init m) s) : Inv p m s :=
  h.invariant (fun _ _ _ hs hStep => step_inv hs hStep) (init_inv m)

/-! ## Progress -/

/-- A thread that waits for no lock goes on. -/
theorem exists_proceed [Fintype θ] (hCall : (s.threads t).inCall = true)
    (hWants : (s.threads t).wants = none) : ∃ s', s.proceed p t = some s' := by
  apply Option.isSome_iff_exists.mp
  cases hPc : s.threads t with
  | locking call taken todo =>
    cases todo with
    | nil => simp only [proceed, hPc, Option.isSome_some]
    | cons i todo =>
      rw [hPc] at hWants
      cases hWants
  | running call l =>
    simp only [proceed, hPc]
    split <;> rfl
  | unlocking call result todo =>
    cases todo <;> simp only [proceed, hPc, Option.isSome_some]
  | _ =>
    rw [hPc] at hCall
    cases hCall

/-- A lock that nobody holds can be taken. -/
theorem exists_lock [Fintype θ] {i : ι} (hWants : (s.threads t).wants = some i)
    (hNone : ∀ u, i ∉ (s.threads u).held p) : ∃ s', s.proceed p t = some s' := by
  cases hPc : s.threads t with
  | locking call taken todo =>
    cases todo with
    | nil =>
      rw [hPc] at hWants
      cases hWants
    | cons j todo =>
      rw [hPc] at hWants
      cases hWants
      have hFree : s.Available p t call i := fun u _ hHeld => absurd hHeld (hNone u)
      exact ⟨_, by simp only [proceed, hPc, if_pos hFree]; rfl⟩
  | _ =>
    rw [hPc] at hWants
    cases hWants

/-- As long as there is a call, some thread goes on without a lock, or there is a lock that
nobody holds and whoever waits for it can have it. -/
theorem progress [Fintype θ] (hs : Inv p m s) (hCall : (s.threads t).inCall = true) :
    (∃ u s', (s.threads u).wants = none ∧ s.proceed p u = some s') ∨
      ∃ i, (∀ u, i ∉ (s.threads u).held p) ∧ (∃ u, (s.threads u).wants = some i) ∧
        ∀ u, (s.threads u).wants = some i → ∃ s', s.proceed p u = some s' := by
  by_cases hGoes : ∃ u, (s.threads u).inCall = true ∧ (s.threads u).wants = none
  · obtain ⟨u, hIn, hWants⟩ := hGoes
    obtain ⟨s', hStep⟩ := exists_proceed hIn hWants
    exact Or.inl ⟨u, s', hWants, hStep⟩
  · right
    have hWaits : ∀ u, (s.threads u).inCall = true → ∃ j, (s.threads u).wants = some j := by
      intro u hIn
      apply Option.ne_none_iff_exists'.mp
      exact fun hNone => hGoes ⟨u, hIn, hNone⟩
    -- the lock of the highest rank that a thread waits for
    obtain ⟨u, -, hMax⟩ :=
      Finset.exists_max_image Finset.univ (waitingRank p s) ⟨t, Finset.mem_univ t⟩
    obtain ⟨j, hj⟩ := hWaits t hCall
    have hPos : 0 < waitingRank p s u := by
      refine lt_of_lt_of_le ?_ (hMax t (Finset.mem_univ t))
      simp only [waitingRank, hj]
      exact Nat.succ_pos _
    obtain ⟨i, hi⟩ : ∃ i, (s.threads u).wants = some i := by
      apply Option.ne_none_iff_exists'.mp
      intro hNone
      simp only [waitingRank, hNone] at hPos
      exact absurd hPos (lt_irrefl 0)
    have hNone : ∀ v, i ∉ (s.threads v).held p := by
      intro v hHeld
      obtain ⟨k, hk⟩ := hWaits v (Pc.inCall_of_held hHeld)
      have hLt := rank_lt_of_held hs hHeld hk
      have hLe := hMax v (Finset.mem_univ v)
      simp only [waitingRank, hi, hk] at hLe
      omega
    exact ⟨i, hNone, ⟨u, hi⟩, fun v hv => exists_lock hv hNone⟩

/-- The step is one of the call of the thread. -/
def Act.isProceed (t : θ) : Act θ κ → Bool
  | .proceed u => decide (u = t)
  | _ => false

/-- The step begins a call of the thread. -/
def Act.isCall (t : θ) : Act θ κ → Bool
  | .call u _ => decide (u = t)
  | _ => false

/-- The steps of a thread lower what its call has left, and those of the others leave it. -/
theorem stepsLeft_step [Fintype θ] (hAct : act.isCall t = false) (h : step p s act = some s') :
    (s'.threads t).stepsLeft p + (if act.isProceed t then 1 else 0) ≤
      (s.threads t).stepsLeft p := by
  have hOther : ∀ {u : θ} {pc : Pc ι κ loc ρ}, u ≠ t →
      ((s.goto u pc).threads t).stepsLeft p +
          (if (Act.proceed u : Act θ κ).isProceed t then 1 else 0) ≤
        (s.threads t).stepsLeft p := by
    intro u pc hu
    rw [goto_threads_of_ne (Ne.symm hu), Act.isProceed, decide_eq_false hu]
    exact le_rfl
  have hSelf : ∀ {pc : Pc ι κ loc ρ}, pc.stepsLeft p < (s.threads t).stepsLeft p →
      ((s.goto t pc).threads t).stepsLeft p +
          (if (Act.proceed t : Act θ κ).isProceed t then 1 else 0) ≤
        (s.threads t).stepsLeft p := by
    intro pc hLt
    rw [goto_threads_self, Act.isProceed, decide_eq_true rfl]
    exact hLt
  cases step_cases h with
  | @call u call hPc =>
    have hu : u ≠ t := of_decide_eq_false hAct
    rw [show (State.threads _ t) = _ from goto_threads_of_ne (Ne.symm hu)]
    exact le_rfl
  | @take u call result hPc =>
    by_cases hu : u = t
    · subst hu
      rw [goto_threads_self]
      exact Nat.zero_le _
    · rw [goto_threads_of_ne (Ne.symm hu)]
      exact le_rfl
  | @lock u call taken i todo hPc =>
    by_cases hu : u = t
    · subst hu
      refine hSelf ?_
      rw [hPc]
      simp only [Pc.stepsLeft, List.length_cons]
      omega
    · exact hOther hu
  | @start u call taken hPc =>
    by_cases hu : u = t
    · subst hu
      refine hSelf ?_
      rw [hPc]
      simp only [Pc.stepsLeft, List.length_nil]
      omega
    · exact hOther hu
  | @body u call l l' tables hPc hNext =>
    by_cases hu : u = t
    · subst hu
      refine hSelf ?_
      have hLt := p.lowers call l s.tables l' tables hNext
      rw [hPc]
      simp only [Pc.stepsLeft]
      omega
    · exact hOther hu
  | @finish u call l result hPc hNext =>
    by_cases hu : u = t
    · subst hu
      refine hSelf ?_
      rw [hPc]
      simp only [Pc.stepsLeft, List.length_reverse]
      omega
    · exact hOther hu
  | @unlock u call result i todo hPc =>
    by_cases hu : u = t
    · subst hu
      refine hSelf ?_
      rw [hPc]
      simp only [Pc.stepsLeft, List.length_cons]
      omega
    · exact hOther hu
  | @leave u call result hPc =>
    by_cases hu : u = t
    · subst hu
      refine hSelf ?_
      rw [hPc]
      simp only [Pc.stepsLeft, List.length_nil]
      omega
    · exact hOther hu

theorem countP_isProceed_le [Fintype θ] {acts : List (Act θ κ)}
    (hRun : run (step p) s acts = some s') (hActs : ∀ act ∈ acts, act.isCall t = false) :
    acts.countP (Act.isProceed t) ≤ (s.threads t).stepsLeft p := by
  have hLe := countP_add_le_of_lowers (I := fun _ => True) (A := fun act => act.isCall t = false)
    (Act.isProceed t) (fun x : State τ θ κ loc ρ => (x.threads t).stepsLeft p)
    (fun _ _ _ _ _ _ => trivial) (fun _ _ _ _ hAct hStep => stepsLeft_step hAct hStep) hRun trivial
    hActs
  omega

end Finish

end State

end Foundation.CriticalSection
