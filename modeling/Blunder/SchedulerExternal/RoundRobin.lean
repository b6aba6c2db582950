import Blunder.Core.Protocol
import Blunder.Foundation.Holdings
import Mathlib.Data.List.Forall2

/-!
# The round-robin scheduler

`RoundRobinScheduler::schedule` puts each item on the first worker none of whose items of
the same call shares an account with it. When every worker has such an item, a counter
that lives as long as the scheduler picks the worker.

* `schedule_forall₂`: with at least one worker there is one assignment for each item, in
  the order of the items.
* `schedule_lowestFree`: which worker each item gets, and when the counter plays no part.
-/

namespace Blunder

open Foundation FirstFit ListScheduling

/-- The counter is an `AtomicUsize`. -/
structure RoundRobinScheduler where
  nextWorker : UInt64
deriving DecidableEq

/-- The assignment of an item to a worker. -/
def ExecutionUnitData.assignment (item : ExecutionUnitData) (workerId : ℕ) : WorkerAssignment :=
  { unitId := item.id, workerId, isBundle := item.isBundle }

namespace RoundRobinScheduler

def new : RoundRobinScheduler := ⟨0⟩

def getAccounts (item : ExecutionUnitData) : Finset AccountKey := item.accounts.toFinset

/-- The worker for an item. The fallback increments the counter, which wraps. -/
def findWorker {n : ℕ} (s : RoundRobinScheduler) (workerLocked : Fin (n + 1) → Finset AccountKey)
    (itemAccounts : Finset AccountKey) : RoundRobinScheduler × Fin (n + 1) :=
  match firstFree workerLocked itemAccounts with
  | some w => (s, w)
  | none => (⟨s.nextWorker + 1⟩, Fin.ofNat (n + 1) s.nextWorker.toNat)

/-- The iteration over the items. -/
def scheduleFrom {n : ℕ} (s : RoundRobinScheduler)
    (workerLocked : Fin (n + 1) → Finset AccountKey) :
    List ExecutionUnitData → RoundRobinScheduler × List WorkerAssignment
  | [] => (s, [])
  | item :: items =>
    let (s, w) := s.findWorker workerLocked (getAccounts item)
    let (s, assignments) := scheduleFrom s (put workerLocked w (getAccounts item)) items
    (s, item.assignment w :: assignments)

def schedule (s : RoundRobinScheduler) (items : List ExecutionUnitData) :
    ℕ → RoundRobinScheduler × List WorkerAssignment
  | 0 => (s, [])
  | n + 1 => s.scheduleFrom (n := n) (fun _ => ∅) items

theorem scheduleFrom_forall₂ {n : ℕ} (s : RoundRobinScheduler)
    (workerLocked : Fin (n + 1) → Finset AccountKey) (items : List ExecutionUnitData) :
    List.Forall₂ (fun item a => ∃ w < n + 1, a = ExecutionUnitData.assignment item w) items
      (s.scheduleFrom workerLocked items).2 := by
  induction items generalizing s workerLocked with
  | nil => exact List.Forall₂.nil
  | cons item items ih =>
    rw [scheduleFrom]
    exact List.Forall₂.cons ⟨_, Fin.isLt _, rfl⟩ (ih _ _)

theorem schedule_forall₂ (s : RoundRobinScheduler) (items : List ExecutionUnitData)
    {workerCount : ℕ} (hCount : 1 ≤ workerCount) :
    List.Forall₂ (fun item a => ∃ w < workerCount, a = ExecutionUnitData.assignment item w) items
      (s.schedule items workerCount).2 := by
  cases workerCount with
  | zero => cases hCount
  | succ n => exact scheduleFrom_forall₂ s (fun _ => ∅) items

/-! ## Which worker an item gets -/

section Placement

variable {workerCount : ℕ}

/-- The item and worker of an assignment. -/
def placed (e : ExecutionUnitData × Fin workerCount) : WorkerAssignment := e.1.assignment e.2

/-- The counter only decides for items that no worker is free for. -/
theorem findWorker_lowestFree {n : ℕ} {s : RoundRobinScheduler}
    {workerLocked : Fin (n + 1) → Finset AccountKey} {p : Placement ExecutionUnitData (n + 1)}
    (h : Holds getAccounts p workerLocked) {item : ExecutionUnitData}
    (hSome : ∃ v, Free getAccounts p item v) :
    LowestFree getAccounts p item (s.findWorker workerLocked (getAccounts item)).2 := by
  rw [findWorker]
  cases hFirst : firstFree workerLocked (getAccounts item) with
  | none =>
    obtain ⟨v, hv⟩ := hSome
    exact absurd hv (h.firstFree_eq_none_iff.mp hFirst v)
  | some w => exact h.firstFree_eq_some_iff.mp hFirst

theorem findWorker_eq {n : ℕ} (s : RoundRobinScheduler)
    {workerLocked : Fin (n + 1) → Finset AccountKey} {p : Placement ExecutionUnitData (n + 1)}
    (h : Holds getAccounts p workerLocked) {item : ExecutionUnitData} {w : Fin (n + 1)}
    (hLowest : LowestFree getAccounts p item w) :
    s.findWorker workerLocked (getAccounts item) = (s, w) := by
  rw [findWorker, h.firstFree_eq_some_iff.mpr hLowest]

/-- The iteration from sets that hold a placement extends the placement. -/
theorem scheduleFrom_lowestFree {n : ℕ} (s : RoundRobinScheduler)
    {workerLocked : Fin (n + 1) → Finset AccountKey} {p : Placement ExecutionUnitData (n + 1)}
    (h : Holds getAccounts p workerLocked) (items : List ExecutionUnitData) :
    ∃ rest : Placement ExecutionUnitData (n + 1),
      rest.map Prod.fst = items ∧ (s.scheduleFrom workerLocked items).2 = rest.map placed ∧
      ∀ pre item w post, rest = pre ++ (item, w) :: post →
        (∃ v, Free getAccounts (p ++ pre) item v) → LowestFree getAccounts (p ++ pre) item w := by
  induction items generalizing s workerLocked p with
  | nil =>
    refine ⟨[], rfl, rfl, ?_⟩
    intro pre item w post hSplit
    simp at hSplit
  | cons item items ih =>
    obtain ⟨rest, hItems, hAssign, hRest⟩ := ih
      (s.findWorker workerLocked (getAccounts item)).1
      (h.put item (s.findWorker workerLocked (getAccounts item)).2)
    refine ⟨(item, (s.findWorker workerLocked (getAccounts item)).2) :: rest, ?_, ?_, ?_⟩
    · rw [List.map_cons, hItems]
    · rw [scheduleFrom, List.map_cons]
      exact congrArg (item.assignment _ :: ·) hAssign
    · intro pre other w post hSplit hSome
      cases pre with
      | nil =>
        obtain ⟨hHead, -⟩ := List.cons.inj hSplit
        cases hHead
        rw [List.append_nil] at hSome ⊢
        exact findWorker_lowestFree h hSome
      | cons e pre =>
        obtain ⟨rfl, hTail⟩ := List.cons.inj hSplit
        rw [List.append_cons] at hSome ⊢
        exact hRest pre other w post hTail hSome

/-- Items that all find a free worker leave the counter alone and do not depend on it. -/
theorem scheduleFrom_eq {n : ℕ} (s : RoundRobinScheduler)
    {workerLocked : Fin (n + 1) → Finset AccountKey} {p rest : Placement ExecutionUnitData (n + 1)}
    (h : Holds getAccounts p workerLocked)
    (hLowest : ∀ pre item w post, rest = pre ++ (item, w) :: post →
      LowestFree getAccounts (p ++ pre) item w) :
    s.scheduleFrom workerLocked (rest.map Prod.fst) = (s, rest.map placed) := by
  induction rest generalizing workerLocked p with
  | nil => rfl
  | cons e rest ih =>
    obtain ⟨item, w⟩ := e
    have hHead : LowestFree getAccounts p item w := by
      simpa only [List.append_nil] using hLowest [] item w rest rfl
    have hTail := ih (h.put item w) fun pre other v post hSplit => by
      rw [List.append_assoc, List.singleton_append]
      exact hLowest ((item, w) :: pre) other v post (by rw [hSplit, List.cons_append])
    rw [List.map_cons, scheduleFrom, findWorker_eq s h hHead]
    simp only [hTail]
    rfl

/-- Each item goes to the lowest worker without an earlier item that shares an account
with it, if there is one. So items with fewer than `workerCount` earlier conflicts never
meet one on their worker, and their workers do not depend on the counter. -/
theorem schedule_lowestFree (s : RoundRobinScheduler) (items : List ExecutionUnitData)
    (hCount : 1 ≤ workerCount) :
    ∃ p : Placement ExecutionUnitData workerCount,
      p.map Prod.fst = items ∧ (s.schedule items workerCount).2 = p.map placed ∧
      (∀ pre item w post, p = pre ++ (item, w) :: post →
        (∃ v, Free getAccounts pre item v) → LowestFree getAccounts pre item w) ∧
      ((∀ pre item post, items = pre ++ item :: post →
          pre.countP (fun other => ¬ Disjoint (getAccounts item) (getAccounts other)) <
            workerCount) →
        Apart getAccounts p ∧ (s.schedule items workerCount).1 = s ∧
          ∀ s' : RoundRobinScheduler,
            (s'.schedule items workerCount).2 = (s.schedule items workerCount).2) := by
  obtain ⟨n, rfl⟩ := Nat.exists_eq_add_of_le' hCount
  obtain ⟨p, rfl, hAssign, hLowest⟩ :=
    scheduleFrom_lowestFree s (Holds.nil (n := n + 1)) items
  refine ⟨p, rfl, hAssign, hLowest, ?_⟩
  intro hFew
  have hFree : ∀ pre item w post, p = pre ++ (item, w) :: post →
      LowestFree getAccounts pre item w := by
    intro pre item w post hSplit
    apply hLowest pre item w post hSplit
    apply exists_free
    have hBefore := hFew (pre.map Prod.fst) item (post.map Prod.fst) (by
      rw [hSplit, List.map_append, List.map_cons])
    rw [List.countP_map] at hBefore
    exact hBefore
  have hEq : ∀ s' : RoundRobinScheduler,
      s'.schedule (p.map Prod.fst) (n + 1) = (s', p.map placed) :=
    fun s' => s'.scheduleFrom_eq Holds.nil hFree
  refine ⟨Apart.of_free fun pre item w post hSplit => (hFree pre item w post hSplit).free, ?_, ?_⟩
  · rw [hEq]
  · intro s'
    rw [hEq, hEq]

/-- Three items for one account and four workers, with two counters. -/
theorem schedule_lowestFree_sharedAccount :
    let item := fun id => ExecutionUnitData.transaction id 1000 [(Pubkey.filled 1).toBytes]
    let items := [item "tx1", item "tx2", item "tx3"]
    ((⟨7⟩ : RoundRobinScheduler).schedule items 4).2 = (new.schedule items 4).2 := by
  intro item items
  obtain ⟨p, -, -, -, hFew⟩ := schedule_lowestFree new items (show 1 ≤ 4 by omega)
  refine (hFew ?_).2.2 ⟨7⟩
  intro pre other post hSplit
  have hLength := congrArg List.length hSplit
  have hConflicts := List.countP_le_length (p := fun first : ExecutionUnitData =>
    ¬ Disjoint (getAccounts other) (getAccounts first)) (l := pre)
  simp only [items, List.length_cons, List.length_nil, List.length_append] at hLength
  omega

end Placement

end RoundRobinScheduler

end Blunder
