import Blunder.Foundation.Transition
import Blunder.Scheduler.Greedy
import Blunder.Scheduler.PrioGraph

/-!
# The adaptive scheduler

`AdaptiveScheduler::schedule` stores the size of the batch in its load monitor and hands
the batch to the greedy scheduler above 2000 units, to the priority graph otherwise. The
greedy lock sets live as long as the scheduler; no driver releases or resets them.

* `schedule_assigns_iff`: a fresh scheduler assigns every unit once exactly when the batch
  has at most 2000 units or a first-fit colouring with as many colours as workers.
* `scheduleAll_eq_fresh`: a sequence of batches is scheduled as by fresh schedulers as
  long as no unit meets what is still locked on its first-fit worker.
-/

namespace Blunder

open Foundation.FirstFit Foundation.Transition

/-! ## The load monitor -/

structure LoadMonitor where
  pendingCount : ℕ
  lowThreshold : ℕ
  highThreshold : ℕ
deriving DecidableEq

namespace LoadMonitor

def new (lowThreshold highThreshold : ℕ) : LoadMonitor := ⟨0, lowThreshold, highThreshold⟩

def updatePending (monitor : LoadMonitor) (count : ℕ) : LoadMonitor :=
  { monitor with pendingCount := count }

def shouldUseGreedy (monitor : LoadMonitor) : Bool :=
  decide (monitor.highThreshold < monitor.pendingCount)

end LoadMonitor

/-! ## The scheduler -/

/-- The priority-graph scheduler has no state besides the number of workers. -/
structure AdaptiveScheduler (workerCount : ℕ) where
  greedy : GreedyScheduler workerCount
  loadMonitor : LoadMonitor

namespace AdaptiveScheduler

variable {workerCount : ℕ}

def new (workerCount : ℕ) : AdaptiveScheduler workerCount :=
  ⟨GreedyScheduler.new workerCount, LoadMonitor.new 500 2000⟩

/-- What `choose_scheduler` returns a reference to. -/
inductive Choice
  | greedy
  | priograph
deriving DecidableEq

def chooseScheduler (s : AdaptiveScheduler workerCount) (totalItems : ℕ) : LoadMonitor × Choice :=
  let loadMonitor := s.loadMonitor.updatePending totalItems
  (loadMonitor, if loadMonitor.shouldUseGreedy then .greedy else .priograph)

def schedule (heap : PrioGraphScheduler.BinaryHeap) (s : AdaptiveScheduler workerCount)
    (bundles : List Bundle) (looseTxs : List Transaction) :
    AdaptiveScheduler workerCount × Except Panic (List WorkerAssignment) :=
  match s.chooseScheduler (bundles.length + looseTxs.length) with
  | (loadMonitor, .greedy) =>
    let (greedy, assignments) := s.greedy.schedule bundles looseTxs
    ({ greedy, loadMonitor }, .ok assignments)
  | (loadMonitor, .priograph) =>
    ({ s with loadMonitor }, PrioGraphScheduler.schedule heap workerCount bundles looseTxs)

/-! ## Which scheduler serves a batch -/

section Choice

variable {heap : PrioGraphScheduler.BinaryHeap} {s : AdaptiveScheduler workerCount}
  {bundles : List Bundle} {looseTxs : List Transaction}

theorem schedule_of_le (hThreshold : s.loadMonitor.highThreshold = 2000)
    (hLe : (batchUnits bundles looseTxs).length ≤ 2000) :
    s.schedule heap bundles looseTxs =
      ({ s with loadMonitor := s.loadMonitor.updatePending (bundles.length + looseTxs.length) },
        PrioGraphScheduler.schedule heap workerCount bundles looseTxs) := by
  rw [length_batchUnits] at hLe
  have hChoice : ¬ s.loadMonitor.highThreshold < bundles.length + looseTxs.length := by omega
  simp [schedule, chooseScheduler, LoadMonitor.shouldUseGreedy, LoadMonitor.updatePending, hChoice]

theorem schedule_of_gt (hThreshold : s.loadMonitor.highThreshold = 2000)
    (hGt : 2000 < (batchUnits bundles looseTxs).length) :
    s.schedule heap bundles looseTxs =
      (⟨(s.greedy.schedule bundles looseTxs).1,
          s.loadMonitor.updatePending (bundles.length + looseTxs.length)⟩,
        .ok (s.greedy.schedule bundles looseTxs).2) := by
  rw [length_batchUnits] at hGt
  have hChoice : s.loadMonitor.highThreshold < bundles.length + looseTxs.length := by omega
  simp [schedule, chooseScheduler, LoadMonitor.shouldUseGreedy, LoadMonitor.updatePending, hChoice]

/-- No call changes the threshold. -/
theorem schedule_threshold :
    (s.schedule heap bundles looseTxs).1.loadMonitor.highThreshold = s.loadMonitor.highThreshold := by
  cases hGreedy : (s.loadMonitor.updatePending (bundles.length + looseTxs.length)).shouldUseGreedy <;>
    simp only [schedule, chooseScheduler, hGreedy, Bool.false_eq_true, if_true, if_false] <;> rfl

/-- Both schedulers read a batch through its nodes: equal nodes, equal results. -/
theorem schedule_congr {bundles' : List Bundle} {looseTxs' : List Transaction}
    (hNodes : PrioGraphScheduler.buildNodes bundles looseTxs =
      PrioGraphScheduler.buildNodes bundles' looseTxs') :
    s.schedule heap bundles looseTxs = s.schedule heap bundles' looseTxs' := by
  have hUnits := hNodes
  rw [PrioGraphScheduler.buildNodes_eq, PrioGraphScheduler.buildNodes_eq] at hUnits
  have hLength : bundles.length + looseTxs.length = bundles'.length + looseTxs'.length := by
    rw [← length_batchUnits, ← length_batchUnits]
    simpa using congrArg List.length hUnits
  have hAccounts : GreedyScheduler.accountSets (batchUnits bundles looseTxs) =
      GreedyScheduler.accountSets (batchUnits bundles' looseTxs') := by
    have hMap := congrArg (List.map PrioGraphScheduler.Node.accounts) hUnits
    rw [List.map_map, List.map_map] at hMap
    unfold GreedyScheduler.accountSets
    simpa only [Function.comp_def, PrioGraphScheduler.unitNode_accounts] using hMap
  have hGreedy : s.greedy.schedule bundles looseTxs = s.greedy.schedule bundles' looseTxs' := by
    rw [GreedyScheduler.schedule_eq, GreedyScheduler.schedule_eq, hAccounts]
    congr 1
    apply GreedyScheduler.placed_congr PrioGraphScheduler.unitNode _ hUnits
    intro unit unit' workerId hView
    rw [← PrioGraphScheduler.unitNode_assignment, hView, PrioGraphScheduler.unitNode_assignment]
  have hGraph := PrioGraphScheduler.schedule_congr heap workerCount hNodes
  unfold schedule
  rw [hLength, hGreedy, hGraph]

end Choice

/-! ## One batch -/

/-- A fresh scheduler assigns every unit exactly once if and only if the batch is small
or its account sets have a first-fit colouring, in the order of the batch, whose colours
are the workers. -/
theorem schedule_assigns_iff (heap : PrioGraphScheduler.BinaryHeap) (workerCount : ℕ)
    (hCount : 1 ≤ workerCount) (bundles : List Bundle) (looseTxs : List Transaction) :
    (∃ assignments, ((new workerCount).schedule heap bundles looseTxs).2 = .ok assignments ∧
        Assigns workerCount (batchUnits bundles looseTxs) assignments) ↔
      (batchUnits bundles looseTxs).length ≤ 2000 ∨
        ∃ color, IsFirstFit (n := workerCount)
          ((batchUnits bundles looseTxs).map SchedulableUnit.allAccounts) color := by
  by_cases hLe : (batchUnits bundles looseTxs).length ≤ 2000
  · rw [schedule_of_le rfl hLe]
    exact iff_of_true (PrioGraphScheduler.schedule_spec heap hCount bundles looseTxs) (Or.inl hLe)
  · rw [schedule_of_gt rfl (Nat.lt_of_not_le hLe), ← all_placed_iff]
    simp only [Except.ok.injEq, exists_eq_left', hLe, false_or]
    exact GreedyScheduler.assigns_iff_all_placed _ _ _

/-- 2000 transactions without accounts, then two that write the same account. -/
@[irreducible] def pairBatch (account : UInt8) : List Bundle × List Transaction :=
  ([], List.replicate 2000 (Transaction.new "free" [] 1 1) ++ List.replicate 2
    (Transaction.new "pair" [AccountMeta.new (Pubkey.filled account) true] 1 1))

theorem accountSets_pairBatch (account : UInt8) :
    (batchUnits (pairBatch account).1 (pairBatch account).2).map SchedulableUnit.allAccounts =
      List.replicate 2000 ∅ ++ List.replicate 2 {Pubkey.filled account} := by
  rw [pairBatch, batchUnits, List.map_nil, List.nil_append, List.map_append, List.map_append,
    List.map_replicate, List.map_replicate, List.map_replicate, List.map_replicate]
  rfl

theorem length_pairBatch (account : UInt8) :
    2000 < (batchUnits (pairBatch account).1 (pairBatch account).2).length := by
  have hLength := congrArg List.length (accountSets_pairBatch account)
  rw [List.length_map, List.length_append, List.length_replicate, List.length_replicate] at hLength
  omega

/-- The second one of the pair is put on another worker than all before. -/
theorem fit_pairBatch (account : UInt8) :
    fit (n := 2) (fun _ => ∅) (List.replicate 2000 ∅ ++ List.replicate 2 {Pubkey.filled account}) =
      List.replicate 2000 (some 0) ++ [some 0, some 1] := by
  have hPair : fit (n := 2) (fun _ => ∅) (List.replicate 2 {Pubkey.filled account}) =
      [some 0, some 1] := by
    simp [List.replicate_succ, fit, firstFree, put, List.finRange_succ]
  rw [fit_append_of_empty Nat.two_pos fun u hu => List.eq_of_mem_replicate hu,
    List.length_replicate, hPair]
  rfl

/-- Both are assigned. -/
theorem schedule_assigns_iff_pairBatch :
    let heap : PrioGraphScheduler.BinaryHeap := fun _ => Foundation.PriorityQueue.MaxHeap.ofList _
    let units := batchUnits (pairBatch 7).1 (pairBatch 7).2
    2000 < units.length ∧ ∃ assignments,
      ((new 2).schedule heap (pairBatch 7).1 (pairBatch 7).2).2 = .ok assignments ∧
        Assigns 2 units assignments := by
  intro heap units
  refine ⟨length_pairBatch 7, (schedule_assigns_iff heap 2 (by decide) _ _).mpr (Or.inr ?_)⟩
  rw [accountSets_pairBatch, ← all_placed_iff, fit_pairBatch]
  intro p hp hNone
  rw [hNone, List.mem_append, List.mem_replicate] at hp
  simp at hp

/-- A transaction that writes account 7. -/
def account7Tx : Transaction := Transaction.new "tx" [AccountMeta.new (Pubkey.filled 7) true] 1 1

/-- A batch of `k + 1` of them. -/
def account7Batch (k : ℕ) : List Bundle × List Transaction :=
  ([], List.replicate (k + 1) account7Tx)

theorem batchUnits_account7Batch (k : ℕ) :
    batchUnits (account7Batch k).1 (account7Batch k).2 =
      List.replicate (k + 1) (.transaction account7Tx) := by
  rw [account7Batch, batchUnits, List.map_nil, List.nil_append, List.map_replicate]

theorem accountSets_account7Batch (k : ℕ) :
    GreedyScheduler.accountSets (batchUnits (account7Batch k).1 (account7Batch k).2) =
      List.replicate (k + 1) {Pubkey.filled 7} := by
  rw [batchUnits_account7Batch, GreedyScheduler.accountSets, List.map_replicate]
  rfl

/-- A worker that locks the account is free for none of them. -/
theorem fit_account7_locked {bins : Fin 1 → Finset Pubkey} (hLocked : Pubkey.filled 7 ∈ bins 0)
    (k : ℕ) : fit bins (List.replicate k {Pubkey.filled 7}) = List.replicate k none := by
  refine fit_replicate (fun b hb => ?_) k
  rw [Subsingleton.elim b 0] at hb
  exact Finset.disjoint_left.mp hb (Finset.mem_singleton_self _) hLocked

/-- On one worker the first of them locks the account for all others. -/
theorem fit_account7 (k : ℕ) :
    fit (n := 1) (fun _ => ∅) (List.replicate (k + 1) {Pubkey.filled 7}) =
      some 0 :: List.replicate k none := by
  have hFree : firstFree (n := 1) (fun _ => ∅) {Pubkey.filled 7} = some 0 :=
    firstFree_eq_some_iff.mpr ⟨Finset.disjoint_empty_right _, fun c hc => absurd hc (Fin.not_lt_zero c)⟩
  have hLocked : Pubkey.filled 7 ∈ put (n := 1) (fun _ => ∅) 0 {Pubkey.filled 7} 0 :=
    mem_put.mpr (Or.inr ⟨rfl, Finset.mem_singleton_self _⟩)
  rw [List.replicate_succ, fit, hFree]
  simp only [fit_account7_locked hLocked]

theorem mem_fill_account7 (k : ℕ) :
    Pubkey.filled 7 ∈ fill (n := 1) (fun _ => ∅) (List.replicate (k + 1) {Pubkey.filled 7}) 0 := by
  refine mem_fill.mpr (Or.inr ⟨0, ?_, ?_, ?_⟩)
  · rw [List.length_replicate]
    omega
  · rw [fit_account7]
    rfl
  · rw [List.getElem_replicate]
    exact Finset.mem_singleton_self _

/-- The first batch gets one assignment. -/
theorem schedule_account7 (k : ℕ) :
    ((GreedyScheduler.new 1).schedule (account7Batch k).1 (account7Batch k).2).2 =
      [SchedulableUnit.assignment (.transaction account7Tx) 0] := by
  simp only [GreedyScheduler.schedule_eq, accountSets_account7Batch, GreedyScheduler.new,
    fit_account7]
  rw [batchUnits_account7Batch, List.replicate_succ, GreedyScheduler.placed,
    GreedyScheduler.placed_replicate_none]
  rfl

/-- The second batch gets none. -/
theorem schedule_account7_again (k : ℕ) :
    (((GreedyScheduler.new 1).schedule (account7Batch k).1 (account7Batch k).2).1.schedule
      (account7Batch k).1 (account7Batch k).2).2 = [] := by
  simp only [GreedyScheduler.schedule_eq, accountSets_account7Batch, GreedyScheduler.new]
  rw [fit_account7_locked (mem_fill_account7 k), GreedyScheduler.placed_replicate_none]

/-- 2001 transactions for one account and one worker: all but the first are skipped. -/
theorem not_schedule_assigns :
    ¬ ∀ (heap : PrioGraphScheduler.BinaryHeap) (workerCount : ℕ), 1 ≤ workerCount →
      ∀ (bundles : List Bundle) (looseTxs : List Transaction),
        ∃ assignments, ((new workerCount).schedule heap bundles looseTxs).2 = .ok assignments ∧
          Assigns workerCount (batchUnits bundles looseTxs) assignments := by
  intro hAll
  obtain ⟨assignments, hSchedule, hAssigns⟩ := hAll
    (fun _ => Foundation.PriorityQueue.MaxHeap.ofList _) 1 le_rfl
    (account7Batch 2000).1 (account7Batch 2000).2
  have hLarge : 2000 < (batchUnits (account7Batch 2000).1 (account7Batch 2000).2).length := by
    rw [batchUnits_account7Batch, List.length_replicate]
    omega
  rw [schedule_of_gt rfl hLarge, Except.ok.injEq] at hSchedule
  rw [← hSchedule, GreedyScheduler.assigns_iff_all_placed, accountSets_account7Batch] at hAssigns
  refine hAssigns none ?_ rfl
  rw [new, GreedyScheduler.new, fit_account7]
  exact List.mem_cons_of_mem _ (List.mem_replicate.mpr ⟨by omega, rfl⟩)

/-! ## Sequences of batches -/

/-- The results of a sequence of calls. -/
def scheduleAll (heap : PrioGraphScheduler.BinaryHeap) :
    AdaptiveScheduler workerCount → List (List Bundle × List Transaction) →
      List (Except Panic (List WorkerAssignment))
  | _, [] => []
  | s, batch :: batches =>
    (s.schedule heap batch.1 batch.2).2 ::
      scheduleAll heap (s.schedule heap batch.1 batch.2).1 batches

/-- One call, as a step on the state of the scheduler. -/
def step (heap : PrioGraphScheduler.BinaryHeap) (s : AdaptiveScheduler workerCount)
    (batch : List Bundle × List Transaction) : Option (AdaptiveScheduler workerCount) :=
  some (s.schedule heap batch.1 batch.2).1

/-- The batch goes to the priority graph, or no unit shares an account with what is
still locked on the worker where first fit from empty sets puts the unit. -/
def Undisturbed (s : AdaptiveScheduler workerCount) (batch : List Bundle × List Transaction) :
    Prop :=
  let units := batchUnits batch.1 batch.2
  units.length ≤ 2000 ∨
    ∀ placement ∈ (units.map SchedulableUnit.allAccounts).zip
        (fit (fun _ => ∅) (units.map SchedulableUnit.allAccounts)),
      ∀ w, placement.2 = some w → Disjoint placement.1 (s.greedy.lockedAccounts w)

theorem schedule_eq_fresh {heap : PrioGraphScheduler.BinaryHeap} {s : AdaptiveScheduler workerCount}
    {batch : List Bundle × List Transaction} (hThreshold : s.loadMonitor.highThreshold = 2000)
    (hUndisturbed : s.Undisturbed batch) :
    (s.schedule heap batch.1 batch.2).2 = ((new workerCount).schedule heap batch.1 batch.2).2 := by
  by_cases hLe : (batchUnits batch.1 batch.2).length ≤ 2000
  · rw [schedule_of_le hThreshold hLe, schedule_of_le rfl hLe]
  · have hGt := Nat.lt_of_not_le hLe
    have hSets := fit_add (hUndisturbed.resolve_left hLe)
    simp only [Finset.union_empty] at hSets
    rw [schedule_of_gt hThreshold hGt, schedule_of_gt rfl hGt, GreedyScheduler.schedule_eq,
      GreedyScheduler.schedule_eq]
    simp only [GreedyScheduler.accountSets, hSets, new, GreedyScheduler.new]

/-- If every batch finds the scheduler undisturbed, each is scheduled as by a fresh
scheduler. -/
theorem scheduleAll_eq_fresh (heap : PrioGraphScheduler.BinaryHeap) (workerCount : ℕ)
    (batches : List (List Bundle × List Transaction))
    (hUndisturbed : Along (step heap) Undisturbed (new workerCount) batches) :
    scheduleAll heap (new workerCount) batches =
      batches.map fun batch => ((new workerCount).schedule heap batch.1 batch.2).2 := by
  have hFrom : ∀ s : AdaptiveScheduler workerCount, s.loadMonitor.highThreshold = 2000 →
      Along (step heap) Undisturbed s batches → scheduleAll heap s batches =
        batches.map fun batch => ((new workerCount).schedule heap batch.1 batch.2).2 := by
    clear hUndisturbed
    induction batches with
    | nil =>
      intro s _ _
      rfl
    | cons batch batches ih =>
      intro s hThreshold hAlong
      obtain ⟨hHead, hTail⟩ := hAlong
      rw [scheduleAll, List.map_cons, schedule_eq_fresh hThreshold hHead]
      rw [ih _ (schedule_threshold.trans hThreshold) (hTail _ rfl)]
  exact hFrom _ rfl hUndisturbed

/-- What a large batch leaves locked are accounts of its units. -/
theorem mem_lockedAccounts (heap : PrioGraphScheduler.BinaryHeap)
    (batch : List Bundle × List Transaction) (w : Fin workerCount) (key : Pubkey)
    (hGt : 2000 < (batchUnits batch.1 batch.2).length)
    (h : key ∈ ((new workerCount).schedule heap batch.1 batch.2).1.greedy.lockedAccounts w) :
    ∃ accounts ∈ (batchUnits batch.1 batch.2).map SchedulableUnit.allAccounts, key ∈ accounts := by
  rw [schedule_of_gt rfl hGt, GreedyScheduler.schedule_eq] at h
  rcases mem_fill.mp h with hOld | ⟨i, hi, -, hKey⟩
  · exact absurd hOld (Finset.notMem_empty _)
  · exact ⟨_, List.getElem_mem hi, hKey⟩

theorem eq_of_mem_pairBatch {account : UInt8} {accounts : Finset Pubkey} {key : Pubkey}
    (hMem : accounts ∈
      (batchUnits (pairBatch account).1 (pairBatch account).2).map SchedulableUnit.allAccounts)
    (hKey : key ∈ accounts) : key = Pubkey.filled account := by
  rw [accountSets_pairBatch] at hMem
  rcases List.mem_append.mp hMem with hFree | hPair
  · rw [List.eq_of_mem_replicate hFree] at hKey
    exact absurd hKey (Finset.notMem_empty _)
  · rw [List.eq_of_mem_replicate hPair] at hKey
    exact Finset.mem_singleton.mp hKey

/-- Where one other account is locked a pair is not disturbed. -/
theorem undisturbed_pairBatch {s : AdaptiveScheduler 2} {account other : UInt8}
    (hLocked : ∀ w, ∀ key ∈ s.greedy.lockedAccounts w, key = Pubkey.filled account)
    (hNe : Pubkey.filled account ≠ Pubkey.filled other) : s.Undisturbed (pairBatch other) := by
  refine Or.inr fun placement hPlacement w _ => Finset.disjoint_left.mpr ?_
  intro key hKey hOld
  have hSame := eq_of_mem_pairBatch (List.of_mem_zip hPlacement).1 hKey
  exact hNe ((hLocked w key hOld).symm.trans hSame)

/-- Two large batches, whose pairs write different accounts. -/
theorem scheduleAll_eq_fresh_pairBatches :
    let heap : PrioGraphScheduler.BinaryHeap := fun _ => Foundation.PriorityQueue.MaxHeap.ofList _
    let batches := [pairBatch 7, pairBatch 8]
    scheduleAll heap (new 2) batches =
      batches.map fun batch => ((new 2).schedule heap batch.1 batch.2).2 := by
  intro heap batches
  have hFirst : (new 2).Undisturbed (pairBatch 7) :=
    Or.inr fun _ _ _ _ => Finset.disjoint_empty_right _
  have hLocked : ∀ w, ∀ key ∈ ((new 2).schedule heap (pairBatch 7).1
      (pairBatch 7).2).1.greedy.lockedAccounts w, key = Pubkey.filled 7 := by
    intro w key hKey
    obtain ⟨accounts, hMem, hIn⟩ :=
      mem_lockedAccounts heap (pairBatch 7) w key (length_pairBatch 7) hKey
    exact eq_of_mem_pairBatch hMem hIn
  refine scheduleAll_eq_fresh heap 2 batches ⟨hFirst, ?_⟩
  intro s hs
  obtain rfl := Option.some.inj hs
  exact ⟨undisturbed_pairBatch hLocked (by decide), fun _ _ => trivial⟩

/-- The account that the first of two equal batches locked is still locked for the
second, which then gets no assignment at all. -/
theorem not_scheduleAll_eq_fresh :
    ¬ ∀ (heap : PrioGraphScheduler.BinaryHeap) (workerCount : ℕ)
      (batches : List (List Bundle × List Transaction)),
        scheduleAll heap (new workerCount) batches =
          batches.map fun batch => ((new workerCount).schedule heap batch.1 batch.2).2 := by
  intro hAll
  have hEq := hAll (fun _ => Foundation.PriorityQueue.MaxHeap.ofList _) 1
    [account7Batch 2000, account7Batch 2000]
  have hLarge : 2000 < (batchUnits (account7Batch 2000).1 (account7Batch 2000).2).length := by
    rw [batchUnits_account7Batch, List.length_replicate]
    omega
  simp only [scheduleAll, List.map_cons, List.map_nil, List.cons.injEq, and_true, true_and] at hEq
  rw [schedule_of_gt (s := new 1) rfl hLarge, schedule_of_gt rfl hLarge, Except.ok.injEq] at hEq
  simp only [new] at hEq
  rw [schedule_account7, schedule_account7_again] at hEq
  exact List.cons_ne_nil _ _ hEq.symm

end AdaptiveScheduler

end Blunder
