import Blunder.Scheduler.Adaptive

/-!
# Calls of one adaptive scheduler that run at the same time

`schedule` takes the scheduler by shared reference. A call stores its number of units in
the load monitor, reads the monitor back in a second step to choose a scheduler, and is
then served by it; the greedy scheduler takes one unit at a time. Other calls may run
between any two steps. `lastStore` is a record of the call that stored last.

* `run_alone`: a call that runs alone is a call of `AdaptiveScheduler.schedule`.
* `servedBySize_iff`: every call is served by the scheduler for its own size exactly when
  each reads the monitor after a store by a call on its side of the threshold.
-/

namespace Blunder

open Foundation.Transition AdaptiveScheduler

/-- The point that a call of `schedule` has reached. -/
inductive AdaptivePhase
  | started
  | stored
  | greedy (left : List SchedulableUnit) (assignments : List WorkerAssignment)
  | priograph
  | returned (choice : Choice) (result : Except Panic (List WorkerAssignment))

/-- The scheduler that serves the call, once it is chosen. -/
def AdaptivePhase.choice : AdaptivePhase → Option Choice
  | .started => none
  | .stored => none
  | .greedy _ _ => some .greedy
  | .priograph => some .priograph
  | .returned choice _ => some choice

structure AdaptiveCall where
  bundles : List Bundle
  looseTxs : List Transaction
  phase : AdaptivePhase

/-- `total_items` -/
def AdaptiveCall.totalItems (call : AdaptiveCall) : ℕ :=
  call.bundles.length + call.looseTxs.length

/-- If a scheduler is chosen, it is the one for the size of the batch. -/
def AdaptiveCall.ServedBySize (call : AdaptiveCall) : Prop :=
  ∀ choice, call.phase.choice = some choice → (choice = .greedy ↔ 2000 < call.totalItems)

structure AdaptiveCalls (workerCount : ℕ) where
  scheduler : AdaptiveScheduler workerCount
  calls : List AdaptiveCall
  lastStore : Option ℕ

namespace AdaptiveCalls

variable {workerCount : ℕ}

/-! ## Steps -/

def new (workerCount : ℕ) : AdaptiveCalls workerCount :=
  ⟨AdaptiveScheduler.new workerCount, [], none⟩

def setPhase (s : AdaptiveCalls workerCount) (c : ℕ) (call : AdaptiveCall) (phase : AdaptivePhase) :
    AdaptiveCalls workerCount :=
  { s with calls := s.calls.set c { call with phase } }

/-- The next step of the call with index `c`. -/
def proceed (heap : PrioGraphScheduler.BinaryHeap) (s : AdaptiveCalls workerCount) (c : ℕ)
    (call : AdaptiveCall) : Option (AdaptiveCalls workerCount) :=
  match call.phase with
  | .started =>
    some { s.setPhase c call .stored with
      scheduler := { s.scheduler with
        loadMonitor := s.scheduler.loadMonitor.updatePending call.totalItems }
      lastStore := some c }
  | .stored =>
    if s.scheduler.loadMonitor.shouldUseGreedy then
      some (s.setPhase c call (.greedy (batchUnits call.bundles call.looseTxs) []))
    else some (s.setPhase c call .priograph)
  | .greedy [] assignments => some (s.setPhase c call (.returned .greedy (.ok assignments)))
  | .greedy (unit :: left) assignments =>
    match s.scheduler.greedy.scheduleUnit unit with
    | (greedy, .ok assignment) =>
      some { s.setPhase c call (.greedy left (assignments ++ [assignment])) with
        scheduler := { s.scheduler with greedy } }
    | (greedy, .error _) =>
      some { s.setPhase c call (.greedy left assignments) with
        scheduler := { s.scheduler with greedy } }
  | .priograph =>
    some (s.setPhase c call (.returned .priograph
      (PrioGraphScheduler.schedule heap workerCount call.bundles call.looseTxs)))
  | .returned _ _ => none

inductive Act
  | start (bundles : List Bundle) (looseTxs : List Transaction)
  | proceed (c : ℕ)

def step (heap : PrioGraphScheduler.BinaryHeap) (s : AdaptiveCalls workerCount) :
    Act → Option (AdaptiveCalls workerCount)
  | .start bundles looseTxs => some { s with calls := s.calls ++ [⟨bundles, looseTxs, .started⟩] }
  | .proceed c => s.calls[c]?.bind (s.proceed heap c)

/-- Every call is served by the scheduler for its own size. -/
def ServedBySize (s : AdaptiveCalls workerCount) : Prop := ∀ call ∈ s.calls, call.ServedBySize

/-- A call that is about to read the monitor finds there the size of a batch on its own
side of the threshold. -/
def Undisturbed (s : AdaptiveCalls workerCount) : Act → Prop
  | .start _ _ => True
  | .proceed c => ∀ reader writer, s.calls[c]? = some reader → reader.phase = .stored →
      s.lastStore.bind (s.calls[·]?) = some writer →
      (2000 < writer.totalItems ↔ 2000 < reader.totalItems)

variable {heap : PrioGraphScheduler.BinaryHeap} {s t : AdaptiveCalls workerCount} {act : Act}
  {c : ℕ} {call : AdaptiveCall}

/-! ## What a step does -/

/-- The monitor has the size of the batch that was stored last. -/
structure Recorded (s : AdaptiveCalls workerCount) : Prop where
  threshold : s.scheduler.loadMonitor.highThreshold = 2000
  pending : ∀ w, s.lastStore = some w →
    s.calls[w]?.map AdaptiveCall.totalItems = some s.scheduler.loadMonitor.pendingCount
  started : s.lastStore = none → ∀ call ∈ s.calls, call.phase = .started

/-- A step of a call changes its phase; the monitor changes when the call stores. -/
inductive Proceeds (s : AdaptiveCalls workerCount) (c : ℕ) (call : AdaptiveCall) :
    AdaptiveCalls workerCount → Prop
  | store (hPhase : call.phase = .started) : Proceeds s c call
      { s.setPhase c call .stored with
        scheduler := { s.scheduler with
          loadMonitor := s.scheduler.loadMonitor.updatePending call.totalItems }
        lastStore := some c }
  | read {phase} (hPhase : call.phase = .stored)
      (hChoice : phase.choice =
        some (if s.scheduler.loadMonitor.shouldUseGreedy then .greedy else .priograph)) :
    Proceeds s c call (s.setPhase c call phase)
  | serve {phase} (greedy : GreedyScheduler workerCount)
      (hChosen : call.phase.choice.isSome) (hChoice : phase.choice = call.phase.choice) :
    Proceeds s c call
      { s.setPhase c call phase with scheduler := { s.scheduler with greedy } }

theorem proceeds_of_proceed (h : s.proceed heap c call = some t) : s.Proceeds c call t := by
  unfold proceed at h
  split at h
  · rename_i hPhase
    cases h
    exact .store hPhase
  · rename_i hPhase
    split at h
    · rename_i hGreedy
      cases h
      exact .read hPhase (by rw [if_pos hGreedy]; rfl)
    · rename_i hGreedy
      cases h
      exact .read hPhase (by rw [if_neg hGreedy]; rfl)
  · rename_i hPhase
    cases h
    exact .serve s.scheduler.greedy (by rw [hPhase]; rfl) (by rw [hPhase]; rfl)
  · rename_i hPhase
    split at h <;>
    · cases h
      exact .serve _ (by rw [hPhase]; rfl) (by rw [hPhase]; rfl)
  · rename_i hPhase
    cases h
    exact .serve s.scheduler.greedy (by rw [hPhase]; rfl) (by rw [hPhase]; rfl)
  · cases h

/-- A new phase leaves the sizes as they are. -/
theorem map_totalItems_setPhase (hCall : s.calls[c]? = some call) (phase : AdaptivePhase) (w : ℕ) :
    (s.setPhase c call phase).calls[w]?.map AdaptiveCall.totalItems =
      s.calls[w]?.map AdaptiveCall.totalItems := by
  obtain ⟨hLt, -⟩ := List.getElem?_eq_some_iff.mp hCall
  by_cases hw : w = c
  · subst hw
    rw [setPhase, List.getElem?_set_self hLt, hCall]
    rfl
  · rw [setPhase, List.getElem?_set_ne (Ne.symm hw)]

theorem mem_setPhase {phase : AdaptivePhase} {other : AdaptiveCall}
    (h : other ∈ (s.setPhase c call phase).calls) :
    other ∈ s.calls ∨ other = { call with phase } :=
  List.mem_or_eq_of_mem_set h

theorem Recorded.new : (new workerCount).Recorded where
  threshold := rfl
  pending w hw := by cases hw
  started _ call hCall := absurd hCall List.not_mem_nil

/-- Once a call has stored, there is a last store. -/
theorem Recorded.lastStore_ne_none (h : s.Recorded) (hCall : s.calls[c]? = some call)
    (hPhase : call.phase ≠ .started) : s.lastStore ≠ none :=
  fun hNone => hPhase (h.started hNone call (List.mem_of_getElem? hCall))

/-- A step of a call that has stored, and that leaves the monitor alone. -/
theorem Recorded.setPhase (h : s.Recorded) (hCall : s.calls[c]? = some call)
    (hPhase : call.phase ≠ .started) (phase : AdaptivePhase) (greedy : GreedyScheduler workerCount) :
    Recorded { s.setPhase c call phase with scheduler := { s.scheduler with greedy } } where
  threshold := h.threshold
  pending w hw := (map_totalItems_setPhase hCall phase w).trans (h.pending w hw)
  started hNone := absurd hNone (h.lastStore_ne_none hCall hPhase)

theorem Recorded.step (h : s.Recorded) (hStep : step heap s act = some t) : t.Recorded := by
  cases act with
  | start bundles looseTxs =>
    cases hStep
    refine ⟨h.threshold, ?_, ?_⟩
    · intro w hw
      have hPending := h.pending w hw
      obtain ⟨writer, hWriter, -⟩ := Option.map_eq_some_iff.mp hPending
      obtain ⟨hLt, -⟩ := List.getElem?_eq_some_iff.mp hWriter
      rwa [List.getElem?_append_left hLt]
    · intro hNone call hCall
      rcases List.mem_append.mp hCall with hOld | hNew
      · exact h.started hNone call hOld
      · rw [List.mem_singleton.mp hNew]
  | proceed c =>
    obtain ⟨call, hCall, hProceed⟩ := Option.bind_eq_some_iff.mp hStep
    cases proceeds_of_proceed hProceed with
    | store hPhase =>
      refine ⟨h.threshold, ?_, ?_⟩
      · intro w hw
        cases hw
        exact (map_totalItems_setPhase hCall _ c).trans (by rw [hCall]; rfl)
      · intro hNone
        cases hNone
    | read hPhase hChoice =>
      refine h.setPhase hCall ?_ _ s.scheduler.greedy
      rw [hPhase]
      intro hStarted
      cases hStarted
    | serve greedy hChosen hChoice =>
      refine h.setPhase hCall ?_ _ greedy
      intro hPhase
      rw [hPhase] at hChosen
      cases hChosen

/-! ## A call without others -/

section Alone

variable {scheduler : AdaptiveScheduler workerCount} {before : List AdaptiveCall}
  {lastStore : Option ℕ} {bundles : List Bundle} {looseTxs : List Transaction}

/-- The last call proceeds. -/
theorem run_last (k : ℕ) :
    run (step heap) ⟨scheduler, before ++ [call], lastStore⟩
        (List.replicate (k + 1) (.proceed before.length)) =
      (proceed heap ⟨scheduler, before ++ [call], lastStore⟩ before.length call).bind
        fun s => run (step heap) s (List.replicate k (.proceed before.length)) := by
  rw [List.replicate_succ, run_cons, step, List.getElem?_concat_length]
  rfl

theorem setPhase_last (phase : AdaptivePhase) :
    setPhase ⟨scheduler, before ++ [call], lastStore⟩ before.length call phase =
      ⟨scheduler, before ++ [{ call with phase }], lastStore⟩ := by
  rw [setPhase, List.set_append_right _ _ le_rfl, Nat.sub_self]
  rfl

/-- The greedy scheduler serves the units one after another, as `schedule` does. -/
theorem run_greedy (left : List SchedulableUnit) (assignments : List WorkerAssignment) :
    run (step heap)
        ⟨scheduler, before ++ [⟨bundles, looseTxs, .greedy left assignments⟩], lastStore⟩
        (List.replicate (left.length + 1) (.proceed before.length)) =
      some ⟨{ scheduler with
          greedy := (GreedyScheduler.scheduleEach GreedyScheduler.scheduleUnit scheduler.greedy left).1 },
        before ++ [⟨bundles, looseTxs, .returned .greedy (.ok (assignments ++
          (GreedyScheduler.scheduleEach GreedyScheduler.scheduleUnit scheduler.greedy left).2))⟩],
        lastStore⟩ := by
  induction left generalizing scheduler assignments with
  | nil =>
    rw [List.length_nil, run_last]
    simp only [proceed, setPhase_last, GreedyScheduler.scheduleEach, List.append_nil]
    rfl
  | cons unit left ih =>
    rw [List.length_cons, run_last, GreedyScheduler.scheduleEach]
    cases hUnit : scheduler.greedy.scheduleUnit unit with
    | mk greedy result =>
      cases result with
      | ok assignment =>
        simp only [proceed, hUnit, setPhase_last, Option.bind_some]
        rw [ih, List.append_assoc, List.singleton_append]
      | error error =>
        simp only [proceed, hUnit, setPhase_last, Option.bind_some]
        rw [ih]

/-- A call whose steps follow each other is a call of `schedule`. -/
theorem run_alone (heap : PrioGraphScheduler.BinaryHeap) (s : AdaptiveCalls workerCount)
    (bundles : List Bundle) (looseTxs : List Transaction) :
    ∃ k choice, run (step heap) s
        (.start bundles looseTxs :: List.replicate k (.proceed s.calls.length)) =
      some ⟨(s.scheduler.schedule heap bundles looseTxs).1,
        s.calls ++ [⟨bundles, looseTxs,
          .returned choice (s.scheduler.schedule heap bundles looseTxs).2⟩],
        some s.calls.length⟩ := by
  obtain ⟨scheduler, before, lastStore⟩ := s
  cases hGreedy : (scheduler.loadMonitor.updatePending
      (bundles.length + looseTxs.length)).shouldUseGreedy with
  | true =>
    refine ⟨(batchUnits bundles looseTxs).length + 3, .greedy, ?_⟩
    rw [run_cons, step, Option.bind_some, run_last]
    simp only [proceed, setPhase_last, Option.bind_some]
    rw [run_last]
    simp only [proceed, setPhase_last, AdaptiveCall.totalItems, hGreedy, if_true, Option.bind_some]
    rw [run_greedy, GreedyScheduler.scheduleEach_eq, List.nil_append]
    simp only [schedule, chooseScheduler, hGreedy, if_true, GreedyScheduler.schedule_eq]
  | false =>
    refine ⟨3, .priograph, ?_⟩
    rw [run_cons, step, Option.bind_some, run_last]
    simp only [proceed, setPhase_last, Option.bind_some]
    rw [run_last]
    simp only [proceed, setPhase_last, AdaptiveCall.totalItems, hGreedy, Bool.false_eq_true,
      if_false, Option.bind_some]
    rw [run_last]
    simp only [proceed, setPhase_last, schedule, chooseScheduler, hGreedy, Bool.false_eq_true,
      if_false, Option.bind_some]
    rfl

end Alone

/-! ## Which scheduler serves a call -/

theorem servedBySize_setPhase {phase : AdaptivePhase} (hCall : s.calls[c]? = some call)
    (hKeep : AdaptiveCall.ServedBySize { call with phase } → call.ServedBySize) :
    (s.setPhase c call phase).ServedBySize ↔
      s.ServedBySize ∧ AdaptiveCall.ServedBySize { call with phase } := by
  obtain ⟨hLt, hGet⟩ := List.getElem?_eq_some_iff.mp hCall
  constructor
  · intro hAll
    have hNew := hAll _ (List.mem_set hLt _)
    refine ⟨?_, hNew⟩
    intro other hOther
    obtain ⟨i, hi, rfl⟩ := List.mem_iff_getElem.mp hOther
    by_cases hic : i = c
    · subst hic
      rw [hGet]
      exact hKeep hNew
    · apply hAll
      rw [← List.getElem_set_ne (Ne.symm hic) (a := { call with phase }) (by simpa using hi)]
      exact List.getElem_mem _
  · intro hBoth other hOther
    rcases mem_setPhase hOther with hOld | rfl
    · exact hBoth.1 other hOld
    · exact hBoth.2

theorem servedBySize_of_none (h : call.phase.choice = none) : call.ServedBySize := by
  intro choice hChoice
  cases h.symm.trans hChoice

theorem servedBySize_congr {phase : AdaptivePhase} (h : phase.choice = call.phase.choice) :
    AdaptiveCall.ServedBySize { call with phase } ↔ call.ServedBySize := by
  unfold AdaptiveCall.ServedBySize
  rw [h]
  rfl

theorem shouldUseGreedy_iff (h : s.Recorded) :
    s.scheduler.loadMonitor.shouldUseGreedy = true ↔
      2000 < s.scheduler.loadMonitor.pendingCount := by
  rw [LoadMonitor.shouldUseGreedy, decide_eq_true_iff, h.threshold]

/-- What the read returns decides whether the call will be served by size. -/
theorem servedBySize_read {phase : AdaptivePhase} (h : s.Recorded)
    (hChoice : phase.choice =
      some (if s.scheduler.loadMonitor.shouldUseGreedy then .greedy else .priograph)) :
    AdaptiveCall.ServedBySize { call with phase } ↔
      (2000 < s.scheduler.loadMonitor.pendingCount ↔ 2000 < call.totalItems) := by
  rw [← shouldUseGreedy_iff h]
  unfold AdaptiveCall.ServedBySize
  rw [hChoice]
  simp only [Option.some.injEq, forall_eq']
  refine iff_congr ?_ Iff.rfl
  split
  · rename_i hGreedy
    exact iff_of_true rfl hGreedy
  · rename_i hGreedy
    exact iff_of_false (fun hSame => by cases hSame) hGreedy

/-- The monitor has the size of the batch of some call. -/
theorem undisturbed_read (h : s.Recorded) (hCall : s.calls[c]? = some call)
    (hPhase : call.phase = .stored) :
    s.Undisturbed (.proceed c) ↔
      (2000 < s.scheduler.loadMonitor.pendingCount ↔ 2000 < call.totalItems) := by
  have hSome : s.lastStore ≠ none := by
    apply h.lastStore_ne_none hCall
    rw [hPhase]
    intro hStarted
    cases hStarted
  obtain ⟨w, hw⟩ := Option.ne_none_iff_exists'.mp hSome
  obtain ⟨writer, hWriter, hPending⟩ := Option.map_eq_some_iff.mp (h.pending w hw)
  have hRecord : s.lastStore.bind (s.calls[·]?) = some writer := by
    rw [hw]
    exact hWriter
  rw [← hPending]
  constructor
  · intro hUndisturbed
    exact hUndisturbed call writer hCall hPhase hRecord
  · intro hSides reader writer' hReader _ hWriter'
    cases hCall.symm.trans hReader
    cases hRecord.symm.trans hWriter'
    exact hSides

/-- A step keeps the calls served by size exactly if it is not a disturbed read. -/
theorem servedBySize_step (h : s.Recorded) (hStep : step heap s act = some t) :
    t.ServedBySize ↔ s.ServedBySize ∧ s.Undisturbed act := by
  cases act with
  | start bundles looseTxs =>
    cases hStep
    rw [ServedBySize, List.forall_mem_append, ← ServedBySize]
    refine and_congr_right fun _ => iff_of_true ?_ trivial
    intro call hCall choice hChoice
    rw [List.mem_singleton.mp hCall] at hChoice
    cases hChoice
  | proceed c =>
    obtain ⟨call, hCall, hProceed⟩ := Option.bind_eq_some_iff.mp hStep
    have hUndisturbed : call.phase ≠ .stored → s.Undisturbed (.proceed c) := by
      intro hPhase reader writer hReader hStored
      cases hCall.symm.trans hReader
      exact absurd hStored hPhase
    cases proceeds_of_proceed hProceed with
    | store hPhase =>
      have hOld : call.ServedBySize := servedBySize_of_none (by rw [hPhase]; rfl)
      have hNew : AdaptiveCall.ServedBySize { call with phase := .stored } := servedBySize_of_none rfl
      refine (servedBySize_setPhase hCall fun _ => hOld).trans ?_
      refine and_congr_right fun _ => iff_of_true hNew (hUndisturbed ?_)
      rw [hPhase]
      intro hStored
      cases hStored
    | read hPhase hChoice =>
      have hOld : call.ServedBySize := servedBySize_of_none (by rw [hPhase]; rfl)
      rw [servedBySize_setPhase hCall fun _ => hOld, servedBySize_read h hChoice,
        undisturbed_read h hCall hPhase]
    | serve greedy hChosen hChoice =>
      have hSame := servedBySize_congr hChoice
      refine (servedBySize_setPhase hCall hSame.mp).trans ?_
      refine and_congr_right fun hAll => iff_of_true ?_ (hUndisturbed ?_)
      · exact hSame.mpr (hAll call (List.mem_of_getElem? hCall))
      · intro hStored
        rw [hStored] at hChosen
        cases hChosen

/-- In a run every call is served by the scheduler for its size, in every state reached,
exactly when every read of the monitor is undisturbed. -/
theorem servedBySize_iff (heap : PrioGraphScheduler.BinaryHeap) {acts : List Act}
    (h : run (step heap) (new workerCount) acts = some t) :
    t.ServedBySize ↔ Along (step heap) Undisturbed (new workerCount) acts := by
  have hNew : (new workerCount).ServedBySize := fun call hCall => absurd hCall List.not_mem_nil
  rw [iff_along (fun _ _ _ hs hStep => Recorded.step hs hStep)
    (fun _ _ _ hs hStep => servedBySize_step hs hStep) h Recorded.new]
  exact and_iff_right hNew

/-- Two small calls and a large one: the first one reads what the second one has stored, the
large one stores when both have read. -/
def storesInTurn (large : List Transaction) : List Act :=
  [.start [] [account7Tx], .start [] [account7Tx, account7Tx], .start [] large, .proceed 0,
    .proceed 1, .proceed 0, .proceed 1, .proceed 2, .proceed 2]

/-- Each is served by the scheduler for its size. -/
theorem servedBySize_iff_storesInTurn :
    let heap : PrioGraphScheduler.BinaryHeap := fun _ => Foundation.PriorityQueue.MaxHeap.ofList _
    let large := List.replicate 2001 account7Tx
    ∃ t, run (step heap) (new 1) (storesInTurn large) = some t ∧
      t.calls.map (fun call => call.phase.choice) =
        [some .priograph, some .priograph, some .greedy] ∧
      t.ServedBySize ∧ Along (step heap) Undisturbed (new 1) (storesInTurn large) := by
  intro heap large
  have hLength : large.length = 2001 := List.length_replicate
  generalize large = large at hLength
  have hRun : run (step heap) (new 1) (storesInTurn large) =
      some ⟨⟨GreedyScheduler.new 1, ⟨2001, 500, 2000⟩⟩,
        [⟨[], [account7Tx], .priograph⟩, ⟨[], [account7Tx, account7Tx], .priograph⟩,
          ⟨[], large, .greedy (batchUnits [] large) []⟩], some 2⟩ := by
    simp [storesInTurn, run, step, proceed, new, setPhase, AdaptiveScheduler.new, LoadMonitor.new,
      LoadMonitor.updatePending, LoadMonitor.shouldUseGreedy, AdaptiveCall.totalItems, hLength]
  have hServed : ∀ call ∈ [(⟨[], [account7Tx], .priograph⟩ : AdaptiveCall),
      ⟨[], [account7Tx, account7Tx], .priograph⟩, ⟨[], large, .greedy (batchUnits [] large) []⟩],
      call.ServedBySize := by
    simp [AdaptiveCall.ServedBySize, AdaptivePhase.choice, AdaptiveCall.totalItems, hLength]
  exact ⟨_, hRun, rfl, hServed, (servedBySize_iff heap hRun).mp hServed⟩

/-- A call for one transaction and a call for 2001 of them: the large one stores between
the two steps of the small one. -/
theorem not_servedBySize :
    ¬ ∀ (heap : PrioGraphScheduler.BinaryHeap) (workerCount : ℕ) (acts : List Act)
      (t : AdaptiveCalls workerCount), run (step heap) (new workerCount) acts = some t →
        t.ServedBySize := by
  intro hAll
  let heap : PrioGraphScheduler.BinaryHeap := fun _ => Foundation.PriorityQueue.MaxHeap.ofList _
  let large := List.replicate 2001 account7Tx
  have hRun : run (step heap) (new 1)
      [.start [] [account7Tx], .start [] large, .proceed 0, .proceed 1, .proceed 0] =
        some ⟨⟨GreedyScheduler.new 1, ⟨2001, 500, 2000⟩⟩,
          [⟨[], [account7Tx], .greedy (batchUnits [] [account7Tx]) []⟩, ⟨[], large, .stored⟩],
          some 1⟩ := by
    have hLength : large.length = 2001 := List.length_replicate
    simp [run, step, proceed, new, setPhase, AdaptiveScheduler.new, LoadMonitor.new,
      LoadMonitor.updatePending, LoadMonitor.shouldUseGreedy, AdaptiveCall.totalItems, hLength]
  have hServed := hAll heap 1 _ _ hRun ⟨[], [account7Tx], .greedy (batchUnits [] [account7Tx]) []⟩
    List.mem_cons_self .greedy rfl
  have hLarge := hServed.mp rfl
  rw [AdaptiveCall.totalItems, List.length_nil, List.length_singleton] at hLarge
  omega

end AdaptiveCalls

end Blunder
