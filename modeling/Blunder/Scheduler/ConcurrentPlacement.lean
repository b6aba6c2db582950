import Blunder.Foundation.Holdings
import Blunder.Scheduler.ConcurrentCalls

/-!
# Where concurrent calls place their units

The greedy scheduler of an `AdaptiveScheduler` is shared by all its calls and nobody empties its
lock sets. A call takes the mutex for one unit at a time, so the units of calls that run at the
same time are placed in between each other. The ledger has all units that were placed, in the
order of the placements, with the index of the call.

* `Accounted`: what the ledger says about one call.
* `serveUnit_inv`: what serving one unit of one call preserves.
* `reachable_ledger`: there is a ledger in every reachable state.
-/

namespace Blunder.AdaptiveCalls

open Foundation FirstFit ListScheduling Transition AdaptiveScheduler

variable {workerCount : ℕ}

/-! ## The ledger -/

/-- A unit with the index of its call. -/
abbrev CallUnit := ℕ × SchedulableUnit

def CallUnit.allAccounts (x : CallUnit) : Finset Pubkey := x.2.allAccounts

abbrev PlacementLedger (workerCount : ℕ) := Placement CallUnit workerCount

/-- The units of one call and their workers. -/
def ownEntries (ledger : PlacementLedger workerCount) (c : ℕ) :
    Placement SchedulableUnit workerCount :=
  (ledger.filter fun e => e.1.1 = c).map fun e => (e.1.2, e.2)

/-- What a call has decided for units, in their order: a worker, or to leave the unit out. -/
abbrev Choices (workerCount : ℕ) := List (SchedulableUnit × Option (Fin workerCount))

def Choices.entries (choices : Choices workerCount) : Placement SchedulableUnit workerCount :=
  choices.filterMap fun choice => choice.2.map fun w => (choice.1, w)

/-- Each unit is in the ledger and in the assignments, or every worker was given a unit with a
common account. -/
structure Served (ledger : PlacementLedger workerCount) (c : ℕ) (choices : Choices workerCount)
    (assignments : List WorkerAssignment) : Prop where
  entries : ownEntries ledger c = choices.entries
  assigned : assignments = choices.entries.map fun e => e.1.assignment e.2
  leftOut : ∀ unit, (unit, none) ∈ choices → ∀ v, ¬ Free CallUnit.allAccounts ledger (c, unit) v

/-- What the ledger has of a call. -/
def Accounted (heap : PrioGraphScheduler.BinaryHeap) (ledger : PlacementLedger workerCount) (c : ℕ)
    (call : AdaptiveCall) : Prop :=
  match call.phase with
  | .greedy left assignments => ∃ choices : Choices workerCount,
      batchUnits call.bundles call.looseTxs = choices.map Prod.fst ++ left ∧
      Served ledger c choices assignments
  | .returned .greedy result => ∃ (choices : Choices workerCount) (assignments : List WorkerAssignment),
      result = .ok assignments ∧ batchUnits call.bundles call.looseTxs = choices.map Prod.fst ∧
      Served ledger c choices assignments
  | .returned .priograph result => ownEntries ledger c = [] ∧
      result = PrioGraphScheduler.schedule heap workerCount call.bundles call.looseTxs
  | _ => ownEntries ledger c = []

/-- The units that were placed, by whichever calls.
* `locked`: the lock sets are their accounts.
* `lowest`: each went to the lowest worker without a unit with a common account.
* `calls`: each call returns assignments for units of its own batch, in their order. -/
structure LedgerOf (heap : PrioGraphScheduler.BinaryHeap) (ledger : PlacementLedger workerCount)
    (s : AdaptiveCalls workerCount) : Prop where
  locked : Holds CallUnit.allAccounts ledger s.scheduler.greedy.lockedAccounts
  lowest : ∀ pre x w post, ledger = pre ++ (x, w) :: post →
    LowestFree CallUnit.allAccounts pre x w
  started : ∀ e ∈ ledger, e.1.1 < s.calls.length
  calls : ∀ c call, s.calls[c]? = some call → Accounted heap ledger c call

section Ledger

variable {heap : PrioGraphScheduler.BinaryHeap} {ledger ledger' : PlacementLedger workerCount}
  {c d : ℕ} {choices : Choices workerCount} {assignments : List WorkerAssignment}
  {unit : SchedulableUnit} {w : Fin workerCount} {call : AdaptiveCall}

theorem ownEntries_concat_self : ownEntries (ledger ++ [((c, unit), w)]) c =
    ownEntries ledger c ++ [(unit, w)] := by
  simp [ownEntries]

theorem ownEntries_concat_of_ne (h : d ≠ c) : ownEntries (ledger ++ [((c, unit), w)]) d =
    ownEntries ledger d := by
  simp [ownEntries, Ne.symm h]

/-- The units of other calls keep a worker busy too. -/
theorem not_free_of_subset {x : CallUnit} (h : ¬ Free CallUnit.allAccounts ledger x w)
    (hGrow : ledger ⊆ ledger') : ¬ Free CallUnit.allAccounts ledger' x w :=
  fun hFree => h fun e he => hFree e (hGrow he)

theorem Served.grow (h : Served ledger c choices assignments) (hGrow : ledger ⊆ ledger')
    (hOwn : ownEntries ledger' c = ownEntries ledger c) : Served ledger' c choices assignments where
  entries := hOwn.trans h.entries
  assigned := h.assigned
  leftOut unit hUnit v := not_free_of_subset (h.leftOut unit hUnit v) hGrow

/-- The ledger grows by units of other calls. -/
theorem Accounted.grow (h : Accounted heap ledger c call) (hGrow : ledger ⊆ ledger')
    (hOwn : ownEntries ledger' c = ownEntries ledger c) : Accounted heap ledger' c call := by
  unfold Accounted at h ⊢
  split at h
  · obtain ⟨choices, hBatch, hServed⟩ := h
    exact ⟨choices, hBatch, hServed.grow hGrow hOwn⟩
  · obtain ⟨choices, assignments, hResult, hBatch, hServed⟩ := h
    exact ⟨choices, assignments, hResult, hBatch, hServed.grow hGrow hOwn⟩
  · exact ⟨hOwn.trans h.1, h.2⟩
  · exact hOwn.trans h

theorem entries_concat_some : Choices.entries (choices ++ [(unit, some w)]) =
    choices.entries ++ [(unit, w)] := by
  simp [Choices.entries]

theorem entries_concat_none :
    Choices.entries (choices ++ [((unit, none) : SchedulableUnit × Option (Fin workerCount))]) =
      choices.entries := by
  simp [Choices.entries]

/-- A unit that is placed. -/
theorem Served.place (h : Served ledger c choices assignments) (unit : SchedulableUnit)
    (w : Fin workerCount) : Served (ledger ++ [((c, unit), w)]) c (choices ++ [(unit, some w)])
      (assignments ++ [unit.assignment w]) where
  entries := by
    rw [ownEntries_concat_self, h.entries, entries_concat_some]
  assigned := by
    rw [entries_concat_some, List.map_append, ← h.assigned]
    rfl
  leftOut other hOther v := by
    rcases List.mem_append.mp hOther with hOld | hNew
    · exact not_free_of_subset (h.leftOut other hOld v) (List.subset_append_left _ _)
    · cases List.mem_singleton.mp hNew

/-- A unit that is left out. -/
theorem Served.skip (h : Served ledger c choices assignments)
    (hBusy : ∀ v, ¬ Free CallUnit.allAccounts ledger (c, unit) v) :
    Served ledger c (choices ++ [(unit, none)]) assignments where
  entries := by
    rw [entries_concat_none, h.entries]
  assigned := by
    rw [entries_concat_none, ← h.assigned]
  leftOut other hOther v := by
    rcases List.mem_append.mp hOther with hOld | hNew
    · exact h.leftOut other hOld v
    · cases List.mem_singleton.mp hNew
      exact hBusy v

theorem LedgerOf.apart {s : AdaptiveCalls workerCount} (h : LedgerOf heap ledger s) :
    Apart CallUnit.allAccounts ledger :=
  Apart.of_free fun pre x w post hSplit => (h.lowest pre x w post hSplit).free

end Ledger

/-! ## Steps -/

section Steps

variable {heap : PrioGraphScheduler.BinaryHeap} {ledger : PlacementLedger workerCount}
  {s t : AdaptiveCalls workerCount} {c d : ℕ} {call other : AdaptiveCall} {phase : AdaptivePhase}
  {unit : SchedulableUnit}

theorem calls_setPhase (hCall : s.calls[c]? = some call)
    (hOther : (s.setPhase c call phase).calls[d]? = some other) :
    d = c ∧ other = { call with phase } ∨ d ≠ c ∧ s.calls[d]? = some other := by
  obtain ⟨hLt, -⟩ := List.getElem?_eq_some_iff.mp hCall
  by_cases hd : d = c
  · subst hd
    rw [setPhase, List.getElem?_set_self hLt] at hOther
    exact Or.inl ⟨rfl, (Option.some.inj hOther).symm⟩
  · rw [setPhase, List.getElem?_set_ne (Ne.symm hd)] at hOther
    exact Or.inr ⟨hd, hOther⟩

/-- A step that places no unit. -/
theorem LedgerOf.setPhase (h : LedgerOf heap ledger s) (hCall : s.calls[c]? = some call)
    (phase : AdaptivePhase) (hAccounted : Accounted heap ledger c { call with phase })
    (scheduler : AdaptiveScheduler workerCount) (hGreedy : scheduler.greedy = s.scheduler.greedy)
    (lastStore : Option ℕ) :
    LedgerOf heap ledger { s.setPhase c call phase with scheduler, lastStore } where
  locked := by
    rw [hGreedy]
    exact h.locked
  lowest := h.lowest
  started e he := by
    simp only [AdaptiveCalls.setPhase, List.length_set]
    exact h.started e he
  calls d other hOther := by
    rcases calls_setPhase hCall hOther with ⟨rfl, rfl⟩ | ⟨-, hSame⟩
    · exact hAccounted
    · exact h.calls d other hSame

/-- A step that places a unit on the lowest free worker. -/
theorem LedgerOf.place {w : Fin workerCount} (h : LedgerOf heap ledger s)
    (hCall : s.calls[c]? = some call)
    (hFirst : firstFree s.scheduler.greedy.lockedAccounts unit.allAccounts = some w)
    (hAccounted : Accounted heap (ledger ++ [((c, unit), w)]) c { call with phase }) :
    LedgerOf heap (ledger ++ [((c, unit), w)]) { s.setPhase c call phase with
      scheduler := { s.scheduler with
        greedy := ⟨put s.scheduler.greedy.lockedAccounts w unit.allAccounts⟩ } } where
  locked := h.locked.put (c, unit) w
  lowest pre x v post hSplit := by
    have hLowest : LowestFree CallUnit.allAccounts ledger (c, unit) w :=
      (h.locked.firstFree_eq_some_iff (x := (c, unit))).mp hFirst
    rcases List.append_eq_append_iff.mp hSplit with ⟨more, hPre, hRest⟩ | ⟨more, hLedger, hRest⟩
    · obtain rfl : more = [] := by
        cases more with
        | nil => rfl
        | cons e more =>
          have hLength := congrArg List.length hRest
          simp at hLength
      rw [List.nil_append] at hRest
      obtain ⟨hEntry, -⟩ := List.cons.inj hRest
      cases hEntry
      rw [hPre, List.append_nil]
      exact hLowest
    · cases more with
      | nil =>
        rw [List.nil_append] at hRest
        obtain ⟨hEntry, -⟩ := List.cons.inj hRest
        cases hEntry
        rw [List.append_nil] at hLedger
        exact hLedger ▸ hLowest
      | cons e more =>
        obtain ⟨rfl, -⟩ := List.cons.inj hRest
        exact h.lowest pre x v more hLedger
  started e he := by
    obtain ⟨hLt, -⟩ := List.getElem?_eq_some_iff.mp hCall
    simp only [AdaptiveCalls.setPhase, List.length_set]
    rcases List.mem_append.mp he with hOld | hNew
    · exact h.started e hOld
    · rw [List.mem_singleton.mp hNew]
      exact hLt
  calls d other hOther := by
    rcases calls_setPhase hCall hOther with ⟨rfl, rfl⟩ | ⟨hNe, hSame⟩
    · exact hAccounted
    · exact (h.calls d other hSame).grow (List.subset_append_left _ _) (ownEntries_concat_of_ne hNe)

/-- The turn of one unit in the loop of the greedy scheduler. -/
theorem serveUnit_inv {left : List SchedulableUnit} {assignments : List WorkerAssignment}
    (h : LedgerOf heap ledger s) (hCall : s.calls[c]? = some call)
    (hPhase : call.phase = .greedy (unit :: left) assignments) (hStep : s.proceed heap c call = some t) :
    ∃ ledger', ledger <+: ledger' ∧ LedgerOf heap ledger' t := by
  have hAccounted := h.calls c call hCall
  simp only [Accounted, hPhase] at hAccounted
  obtain ⟨choices, hBatch, hServed⟩ := hAccounted
  simp only [proceed, hPhase, GreedyScheduler.scheduleUnit_eq] at hStep
  cases hFirst : firstFree s.scheduler.greedy.lockedAccounts unit.allAccounts with
  | none =>
    simp only [hFirst] at hStep
    cases hStep
    have hBusy : ∀ v, ¬ Free CallUnit.allAccounts ledger (c, unit) v :=
      (h.locked.firstFree_eq_none_iff (x := (c, unit))).mp hFirst
    refine ⟨ledger, List.prefix_refl _, h.setPhase hCall (.greedy left assignments) ?_ _ rfl _⟩
    refine ⟨choices ++ [(unit, none)], ?_, hServed.skip hBusy⟩
    rw [hBatch, List.map_append, List.append_assoc]
    rfl
  | some w =>
    simp only [hFirst] at hStep
    cases hStep
    refine ⟨ledger ++ [((c, unit), w)], List.prefix_append _ _, h.place hCall hFirst ?_⟩
    refine ⟨choices ++ [(unit, some w)], ?_, hServed.place unit w⟩
    rw [hBatch, List.map_append, List.append_assoc]
    rfl

theorem proceed_inv (h : LedgerOf heap ledger s) (hCall : s.calls[c]? = some call)
    (hStep : s.proceed heap c call = some t) :
    ∃ ledger', ledger <+: ledger' ∧ LedgerOf heap ledger' t := by
  have hAccounted := h.calls c call hCall
  cases hPhase : call.phase with
  | started =>
    simp only [proceed, hPhase] at hStep
    simp only [Accounted, hPhase] at hAccounted
    cases hStep
    exact ⟨ledger, List.prefix_refl _, h.setPhase hCall .stored hAccounted
      { s.scheduler with
        loadMonitor := s.scheduler.loadMonitor.updatePending call.totalItems } rfl (some c)⟩
  | stored =>
    simp only [proceed, hPhase] at hStep
    simp only [Accounted, hPhase] at hAccounted
    split at hStep
    · cases hStep
      refine ⟨ledger, List.prefix_refl _, h.setPhase hCall (.greedy (batchUnits call.bundles call.looseTxs) [])
        ⟨[], rfl, hAccounted, rfl, ?_⟩ _ rfl _⟩
      intro unit hUnit
      cases hUnit
    · cases hStep
      exact ⟨ledger, List.prefix_refl _, h.setPhase hCall .priograph hAccounted _ rfl _⟩
  | greedy left assignments =>
    cases left with
    | nil =>
      simp only [proceed, hPhase] at hStep
      simp only [Accounted, hPhase] at hAccounted
      cases hStep
      obtain ⟨choices, hBatch, hServed⟩ := hAccounted
      rw [List.append_nil] at hBatch
      exact ⟨ledger, List.prefix_refl _, h.setPhase hCall (.returned .greedy (.ok assignments))
        ⟨choices, assignments, rfl, hBatch, hServed⟩ _ rfl _⟩
    | cons unit left => exact serveUnit_inv h hCall hPhase hStep
  | priograph =>
    simp only [proceed, hPhase] at hStep
    simp only [Accounted, hPhase] at hAccounted
    cases hStep
    exact ⟨ledger, List.prefix_refl _, h.setPhase hCall (.returned .priograph _) ⟨hAccounted, rfl⟩ _ rfl _⟩
  | returned choice result =>
    simp only [proceed, hPhase] at hStep
    cases hStep

/-- A new call has nothing in the ledger. -/
theorem LedgerOf.start (h : LedgerOf heap ledger s) (bundles : List Bundle)
    (looseTxs : List Transaction) :
    LedgerOf heap ledger { s with calls := s.calls ++ [⟨bundles, looseTxs, .started⟩] } where
  locked := h.locked
  lowest := h.lowest
  started e he := by
    rw [List.length_append]
    exact (h.started e he).trans_le (Nat.le_add_right _ _)
  calls d other hOther := by
    by_cases hd : d < s.calls.length
    · rw [List.getElem?_append_left hd] at hOther
      exact h.calls d other hOther
    · rw [List.getElem?_append_right (Nat.le_of_not_lt hd)] at hOther
      obtain ⟨hIndex, hNew⟩ := List.getElem?_eq_some_iff.mp hOther
      have hOwn : ownEntries ledger d = [] := by
        rw [ownEntries, List.map_eq_nil_iff, List.filter_eq_nil_iff]
        intro e he hOwner
        have hLt := h.started e he
        rw [of_decide_eq_true hOwner] at hLt
        exact hd hLt
      rw [List.getElem_singleton] at hNew
      subst hNew
      exact hOwn

theorem step_inv {act : Act} (h : LedgerOf heap ledger s) (hStep : step heap s act = some t) :
    ∃ ledger', ledger <+: ledger' ∧ LedgerOf heap ledger' t := by
  cases act with
  | start bundles looseTxs =>
    cases hStep
    exact ⟨ledger, List.prefix_refl _, h.start bundles looseTxs⟩
  | proceed c =>
    obtain ⟨call, hCall, hProceed⟩ := Option.bind_eq_some_iff.mp hStep
    exact proceed_inv h hCall hProceed

/-- The ledger of a state is the beginning of that of every later state. -/
theorem run_inv (h : LedgerOf heap ledger s) (hReach : Reachable (step heap) s t) :
    ∃ ledger', ledger <+: ledger' ∧ LedgerOf heap ledger' t := by
  refine hReach.invariant (I := fun x => ∃ ledger', ledger <+: ledger' ∧ LedgerOf heap ledger' x) ?_
    ⟨ledger, List.prefix_refl _, h⟩
  intro x act x' hx hStep
  obtain ⟨before, hBefore, hx⟩ := hx
  obtain ⟨after, hAfter, hx'⟩ := step_inv hx hStep
  exact ⟨after, hBefore.trans hAfter, hx'⟩

end Steps

/-! ## Main result -/

theorem ledger_nil (heap : PrioGraphScheduler.BinaryHeap) (workerCount : ℕ) :
    LedgerOf heap [] (new workerCount) where
  locked := Holds.nil
  lowest pre x w post hSplit := by
    cases pre <;> cases hSplit
  started e he := absurd he List.not_mem_nil
  calls c call hCall := by cases hCall

/-- A state with its ledger.
* On each worker no two units that the greedy scheduler has ever placed share an account.
* What is placed stays placed, so a unit that every worker is busy for stays without one. -/
def HasLedger (heap : PrioGraphScheduler.BinaryHeap) (s : AdaptiveCalls workerCount) : Prop :=
  ∃ ledger, LedgerOf heap ledger s ∧ Apart CallUnit.allAccounts ledger ∧
    ∀ s', Reachable (step heap) s s' → ∃ ledger', ledger <+: ledger' ∧ LedgerOf heap ledger' s'

/-- Whichever calls run at the same time, there is a ledger of their placements. -/
theorem reachable_ledger {heap : PrioGraphScheduler.BinaryHeap} {s : AdaptiveCalls workerCount}
    (h : Reachable (step heap) (new workerCount) s) : HasLedger heap s := by
  obtain ⟨ledger, -, hs⟩ := run_inv (ledger_nil heap workerCount) h
  exact ⟨ledger, hs, hs.apart, fun s' hNext => run_inv hs hNext⟩

/-- Two calls for the same transaction that read the size of a third one. -/
def besideLarge (large : List Transaction) : List Act :=
  [.start [] [account7Tx], .start [] [account7Tx], .start [] large, .proceed 0, .proceed 1,
    .proceed 2, .proceed 0, .proceed 1]

theorem run_besideLarge (heap : PrioGraphScheduler.BinaryHeap) {large : List Transaction}
    (hLength : large.length = 2001) :
    run (step heap) (new 1) (besideLarge large) = some ⟨⟨GreedyScheduler.new 1, ⟨2001, 500, 2000⟩⟩,
      [⟨[], [account7Tx], .greedy [.transaction account7Tx] []⟩,
        ⟨[], [account7Tx], .greedy [.transaction account7Tx] []⟩, ⟨[], large, .stored⟩],
      some 2⟩ := by
  simp [besideLarge, run, step, proceed, new, setPhase, AdaptiveScheduler.new, LoadMonitor.new,
    LoadMonitor.updatePending, LoadMonitor.shouldUseGreedy, AdaptiveCall.totalItems, hLength,
    batchUnits]

/-- The only worker gets the transaction once. -/
theorem reachable_ledger_besideLarge :
    let heap : PrioGraphScheduler.BinaryHeap := fun _ => Foundation.PriorityQueue.MaxHeap.ofList _
    ∃ s, run (step heap) (new 1) (besideLarge (List.replicate 2001 account7Tx) ++
        [.proceed 0, .proceed 1, .proceed 0, .proceed 1]) = some s ∧
      s.calls.map AdaptiveCall.phase =
        [.returned .greedy (.ok [⟨"tx", 0, false⟩]), .returned .greedy (.ok []), .stored] ∧
      HasLedger heap s := by
  intro heap
  generalize hLarge : List.replicate 2001 account7Tx = large
  have hLength : large.length = 2001 := hLarge ▸ List.length_replicate
  obtain ⟨s, hRun, hPhases⟩ : ∃ s, run (step heap) (new 1) (besideLarge large ++
      [.proceed 0, .proceed 1, .proceed 0, .proceed 1]) = some s ∧
      s.calls.map AdaptiveCall.phase = [.returned .greedy (.ok [⟨"tx", 0, false⟩]),
        .returned .greedy (.ok []), .stored] := by
    rw [run_append, run_besideLarge heap hLength]
    exact ⟨_, rfl, rfl⟩
  exact ⟨s, hRun, hPhases, reachable_ledger ⟨_, hRun⟩⟩

end Blunder.AdaptiveCalls
