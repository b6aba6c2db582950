import Blunder.Engine.PendingWork

/-!
# One client of a pool

With a single client the waits follow one another, so a wait receives the completions of
everything that was sent since the previous one. A unit that is sent behind a shutdown
is accepted and never completed.

* `inv_step`: for each worker, what the client has received in its wait, what is in the
  channel and the backlog are together what the client has sent to it, in this order.
* `wait_returns_sent`: without shutdowns, what a wait returns, and that it returns.
* `nothing_lost`: with shutdowns, as long as no unit is sent behind one.
-/

namespace Blunder

open Foundation.Transition AsyncWorkerPool

/-- The worker and the unit of a completion. -/
def WorkCompletion.entry (completion : WorkCompletion) : ℕ × String :=
  (completion.workerId, completion.unitId)

namespace ClientPc

/-- What the client has received in its current or last wait. -/
def collected : ClientPc → List WorkCompletion
  | .receiving _ completions => completions
  | .uncounting _ completions => completions
  | .returned completions => completions
  | _ => []

/-- The client is inside `wait_for_completions`. -/
def isWaiting : ClientPc → Bool
  | .locking _ => true
  | .receiving _ _ => true
  | .uncounting _ _ => true
  | _ => false

/-- The client is not inside a wait, and has not returned from one. -/
def isSending : ClientPc → Bool
  | .idle => true
  | .counting => true
  | _ => false

theorem collected_of_isSending (pc : ClientPc) (h : pc.isSending = true) : pc.collected = [] := by
  cases pc with
  | idle => rfl
  | counting => rfl
  | _ => cases h

theorem owes_of_isSending (pc : ClientPc) (h : pc.isSending = true) : pc.owes = 0 := by
  cases pc with
  | idle => rfl
  | counting => rfl
  | _ => cases h

/-- A wait is for all that has been sent, and leaves nothing in flight. -/
def WaitsForAll (sent inFlight : ℕ) : ClientPc → Prop
  | .locking pending => pending = sent
  | .receiving pending _ => pending = sent
  | .uncounting pending _ => pending = sent
  | .returned _ => inFlight = 0
  | _ => True

/-- The client holds the receiver only while it receives. -/
def KeepsReceiver (receiver : Option (Fin 1)) : ClientPc → Prop
  | .receiving _ _ => True
  | .uncounting _ _ => True
  | _ => receiver = none

/-- An upper bound on the steps that the client has left in its wait. -/
def effort : ClientPc → ℕ
  | .locking pending => 2 * pending + 2
  | .receiving pending completions => 2 * (pending - completions.length) + 1
  | .uncounting pending completions => 2 * (pending - completions.length) + 2
  | _ => 0

end ClientPc

namespace PoolClients

variable {workerCount : ℕ}

/-- The step begins a wait. -/
def Act.Waits : Act workerCount 1 → Prop
  | .wait _ => True
  | _ => False

instance (act : Act workerCount 1) : Decidable act.Waits :=
  match act with
  | .wait _ => inferInstanceAs (Decidable True)
  | .work _ => inferInstanceAs (Decidable False)
  | .send _ _ _ => inferInstanceAs (Decidable False)
  | .proceed _ => inferInstanceAs (Decidable False)

/-- The unit ids sent to one worker. -/
def sentIds (sent : List (ℕ × String)) (w : ℕ) : List String :=
  (sent.filter fun entry => decide (entry.1 = w)).map Prod.snd

theorem sentIds_append (sent more : List (ℕ × String)) (w : ℕ) :
    sentIds (sent ++ more) w = sentIds sent w ++ sentIds more w := by
  rw [sentIds, List.filter_append, List.map_append]
  rfl

theorem sentIds_singleton (entry : ℕ × String) (w : ℕ) :
    sentIds [entry] w = if w = entry.1 then [entry.2] else [] := by
  by_cases hw : entry.1 = w
  · simp [sentIds, hw]
  · simp [sentIds, hw, Ne.symm hw]

/-! ## The invariant -/

structure Inv (s : PoolClients workerCount 1) : Prop where
  accounted : Accounted s
  locks : AsyncWorkerPool.Inv s.pool
  conserved : ∀ w : Fin workerCount,
    idsOf ((s.clients 0).collected ++ s.pool.completions) w ++ s.pool.backlogIds w =
      sentIds (s.sent 0) w
  counted : (s.sent 0).length = (s.clients 0).collected.length + s.pool.inFlight
  named : ∀ c ∈ (s.clients 0).collected ++ s.pool.completions, c.workerId < workerCount
  sentNamed : ∀ entry ∈ s.sent 0, entry.1 < workerCount
  waits : (s.clients 0).WaitsForAll (s.sent 0).length s.pool.inFlight
  receiver : (s.clients 0).KeepsReceiver s.receiver

theorem not_overlaps {s : PoolClients workerCount 1} {act : Act workerCount 1} :
    ¬ Overlaps s act := by
  rintro ⟨c, d, -, -, hdc, -⟩
  exact hdc (Subsingleton.elim d c)

section Steps

variable {s s' : PoolClients workerCount 1} {act : Act workerCount 1}

/-- The ledger of a single client. -/
theorem law_of_accounted (hs : Accounted s) :
    s.pool.pendingWork.toNat + (s.clients 0).counts = s.pool.inFlight + (s.clients 0).owes := by
  have hLaw := hs.law
  rw [counting, owing, Fin.sum_univ_one, Fin.sum_univ_one] at hLaw
  exact hLaw

theorem inv_new (workerCount : ℕ) : Inv (new workerCount 1) := by
  have hFlight := spawn_inFlight workerCount
  refine ⟨accounted_new workerCount 1, spawn_inv, fun _ => rfl, ?_, ?_, ?_, trivial, rfl⟩
  · rw [new, hFlight]
    rfl
  · intro c hc
    cases hc
  · intro entry hEntry
    cases hEntry

/-- The client moves on without touching the channels or what it has collected. -/
theorem Inv.goto_quiet {pc : ClientPc} (hs : Inv s) (hAccounted : Accounted s')
    (hClients : s'.clients = Function.update s.clients 0 pc)
    (hWorkers : s'.pool.workers = s.pool.workers)
    (hLocks : s'.pool.globalLocks = s.pool.globalLocks)
    (hChannel : s'.pool.completions = s.pool.completions) (hSent : s'.sent = s.sent)
    (hCollected : pc.collected = (s.clients 0).collected)
    (hWaits : pc.WaitsForAll (s.sent 0).length s.pool.inFlight)
    (hReceiver : pc.KeepsReceiver s'.receiver) : Inv s' := by
  have hPc : s'.clients 0 = pc := by
    rw [hClients, Function.update_self]
  have hFlight : s'.pool.inFlight = s.pool.inFlight := by
    rw [inFlight, inFlight, hWorkers, hChannel]
  refine ⟨hAccounted, ?_, ?_, ?_, ?_, ?_, ?_, ?_⟩
  · apply hs.locks.of_phase_eq hLocks
    intro v
    rw [hWorkers]
  · intro v
    rw [hPc, hCollected, hChannel, hSent, backlogIds, hWorkers]
    exact hs.conserved v
  · rw [hPc, hCollected, hSent, hFlight]
    exact hs.counted
  · rw [hPc, hCollected, hChannel]
    exact hs.named
  · rw [hSent]
    exact hs.sentNamed
  · rw [hPc, hSent, hFlight]
    exact hWaits
  · rw [hPc]
    exact hReceiver

/-- A pool whose channel is closed and empty has nothing in flight. -/
theorem inFlight_of_channelClosed {clientCount : ℕ} {s : PoolClients workerCount clientCount}
    (hChannel : s.pool.completions = []) (hClosed : s.ChannelClosed) : s.pool.inFlight = 0 := by
  refine Blocked.inFlight_eq_zero ?_ hChannel
  intro w
  have hStopped := hClosed w
  left
  rw [isClosed] at hStopped
  split at hStopped
  · assumption
  · cases hStopped

/-- A worker hands on what is in its backlog. -/
theorem Inv.work {w : Fin workerCount} {pool : AsyncWorkerPool workerCount} (hs : Inv s)
    (hWork : s.pool.workStep w = some pool) (hAccounted : Accounted { s with pool }) :
    Inv { s with pool } := by
  have hFlight := workStep_inFlight hWork
  have hNamed : Named s.pool := fun c hc => hs.named c (List.mem_append_right _ hc)
  refine ⟨hAccounted, workStep_inv hs.locks hWork, ?_, ?_, ?_, hs.sentNamed, ?_, hs.receiver⟩
  · intro v
    rw [← hs.conserved v, idsOf_append, idsOf_append, List.append_assoc, List.append_assoc,
      workStep_ids hWork v]
  · rw [hFlight]
    exact hs.counted
  · intro c hc
    rcases List.mem_append.mp hc with hCollected | hChannel
    · exact hs.named c (List.mem_append_left _ hCollected)
    · exact workStep_named hNamed hWork c hChannel
  · rw [hFlight]
    exact hs.waits

/-- A shutdown joins a queue and no backlog. -/
theorem Inv.shutdown (hs : Inv s) (w : Fin workerCount)
    (hAccounted : Accounted { s with pool := s.pool.enqueue w .shutdown }) :
    Inv { s with pool := s.pool.enqueue w .shutdown } := by
  have hFlight : (s.pool.enqueue w .shutdown).inFlight = s.pool.inFlight :=
    enqueue_inFlight (Or.inl rfl)
  refine ⟨hAccounted, enqueue_inv hs.locks w .shutdown, ?_, ?_, hs.named, hs.sentNamed, ?_,
    hs.receiver⟩
  · intro v
    have hBacklog : (s.pool.enqueue w .shutdown).backlogIds v = s.pool.backlogIds v := by
      rw [enqueue_backlogIds (Or.inl rfl), WorkItem.unit?, Option.toList_none, List.map_nil,
        ite_self, List.append_nil]
    rw [hBacklog]
    exact hs.conserved v
  · rw [hFlight]
    exact hs.counted
  · rw [hFlight]
    exact hs.waits

/-- A unit that an open worker gets is the last one of its backlog and the last one sent. -/
theorem Inv.enqueue {w : Fin workerCount} {item : WorkItem} {unit : SchedulableUnit}
    {clients : Fin 1 → ClientPc} {sent : Fin 1 → List (ℕ × String)} (hs : Inv s)
    (hPc : s.clients 0 = .idle) (hClients : clients 0 = .counting)
    (hSent : sent 0 = s.sent 0 ++ [(w.val, unit.unitId)]) (hUnit : item.unit? = some unit)
    (hOpen : AsyncWorker.Open (s.pool.workers w))
    (hAccounted : Accounted ⟨s.pool.enqueue w item, clients, s.receiver, sent⟩) :
    Inv ⟨s.pool.enqueue w item, clients, s.receiver, sent⟩ := by
  have hFlight : (s.pool.enqueue w item).inFlight = s.pool.inFlight + 1 := by
    rw [enqueue_inFlight (Or.inr hOpen), hUnit]
    rfl
  have hNothing : (s.clients 0).collected = [] := by
    rw [hPc]
    rfl
  have hConserved := hs.conserved
  have hCounted := hs.counted
  have hNamed := hs.named
  have hReceiver := hs.receiver
  rw [hNothing] at hConserved hCounted hNamed
  rw [hPc] at hReceiver
  refine ⟨hAccounted, enqueue_inv hs.locks w item, ?_, ?_, ?_, ?_, ?_, ?_⟩
  · intro v
    simp only [hClients, hSent, ClientPc.collected]
    rw [sentIds_append, ← hConserved v, sentIds_singleton, enqueue_backlogIds (Or.inr hOpen),
      hUnit, List.append_assoc]
    simp only [Fin.ext_iff, Option.toList_some, List.map_singleton]
    rfl
  · simp only [hClients, hSent, ClientPc.collected, List.length_append, List.length_singleton,
      hFlight]
    simp only [List.length_nil] at hCounted ⊢
    omega
  · simp only [hClients, ClientPc.collected]
    exact hNamed
  · intro entry hEntry
    simp only [hSent] at hEntry
    rcases List.mem_append.mp hEntry with hOld | hNew
    · exact hs.sentNamed entry hOld
    · rw [List.mem_singleton.mp hNew]
      exact w.isLt
  · simp only [hClients, ClientPc.WaitsForAll]
  · simp only [hClients]
    exact hReceiver

/-- A completion moves from the channel to the client. -/
theorem Inv.receive {pending : ℕ} {received completions : List WorkCompletion}
    {completion : WorkCompletion} {clients : Fin 1 → ClientPc} (hs : Inv s)
    (hPc : s.clients 0 = .receiving pending received)
    (hClients : clients 0 = .uncounting pending (received ++ [completion]))
    (hChannel : s.pool.completions = completion :: completions)
    (hAccounted : Accounted ⟨{ s.pool with completions }, clients, s.receiver, s.sent⟩) :
    Inv ⟨{ s.pool with completions }, clients, s.receiver, s.sent⟩ := by
  have hSplit : (s.clients 0).collected ++ s.pool.completions =
      (received ++ [completion]) ++ completions := by
    rw [hPc, hChannel, List.append_assoc]
    rfl
  have hConserved := hs.conserved
  have hCounted := hs.counted
  have hNamed := hs.named
  have hWaits := hs.waits
  rw [hSplit] at hConserved hNamed
  rw [hPc] at hCounted hWaits
  refine ⟨hAccounted, hs.locks, ?_, ?_, ?_, hs.sentNamed, ?_, ?_⟩
  · intro v
    simp only [hClients]
    exact hConserved v
  · simp only [hClients, ClientPc.collected, List.length_append, List.length_singleton, inFlight]
    simp only [ClientPc.collected, inFlight, hChannel, List.length_cons] at hCounted
    omega
  · simp only [hClients]
    exact hNamed
  · simp only [hClients]
    exact hWaits
  · simp only [hClients, ClientPc.KeepsReceiver]

/-- After a wait the client starts anew, with nothing sent and nothing in flight. -/
theorem Inv.resume {received : List WorkCompletion} {clients : Fin 1 → ClientPc}
    {sent : Fin 1 → List (ℕ × String)} (hs : Inv s) (hPc : s.clients 0 = .returned received)
    (hClients : clients 0 = .idle) (hSent : sent 0 = [])
    (hAccounted : Accounted ⟨s.pool, clients, s.receiver, sent⟩) :
    Inv ⟨s.pool, clients, s.receiver, sent⟩ := by
  have hFlight := hs.waits
  have hReceiver := hs.receiver
  rw [hPc] at hFlight hReceiver
  obtain ⟨hChannel, hBacklog⟩ := inFlight_eq_zero_iff.mp hFlight
  refine ⟨hAccounted, hs.locks, ?_, ?_, ?_, ?_, ?_, ?_⟩
  · intro v
    simp only [hClients, hSent, ClientPc.collected, hChannel, backlogIds, hBacklog]
    rfl
  · simp only [hClients, hSent, ClientPc.collected]
    rw [hFlight]
    rfl
  · simp only [hClients, ClientPc.collected, hChannel]
    exact List.forall_mem_nil _
  · simp only [hSent]
    exact List.forall_mem_nil _
  · simp only [hClients, ClientPc.WaitsForAll]
  · simp only [hClients]
    exact hReceiver

theorem inv_step (hs : Inv s) (hSend : ¬ BehindShutdown s act) (h : s.step act = some s') :
    Inv s' := by
  have hAccounted := accounted_step hs.accounted hSend not_overlaps h
  have hLaw := law_of_accounted hs.accounted
  have hCounted := hs.counted
  have hWaits := hs.waits
  have hReceiver := hs.receiver
  cases step_cases h with
  | work hWork => exact hs.work hWork hAccounted
  | sendFails => exact hs
  | sendShutdown => exact hs.shutdown _ hAccounted
  | @sendUnit c item unit w hPc hUnit hClosed hRoom =>
    obtain rfl := Subsingleton.elim c 0
    have hOpen := open_of_not_behindShutdown hSend hUnit hClosed
    exact hs.enqueue hPc (goto_clients_self _ _ _) (Function.update_self _ _ _) hUnit hOpen
      hAccounted
  | @count c hPc =>
    obtain rfl := Subsingleton.elim c 0
    rw [hPc] at hReceiver
    refine hs.goto_quiet hAccounted rfl rfl rfl rfl rfl ?_ trivial hReceiver
    rw [hPc]
    rfl
  | @loadZero c hPc hPending =>
    obtain rfl := Subsingleton.elim c 0
    rw [hPc] at hReceiver
    refine hs.goto_quiet hAccounted rfl rfl rfl rfl rfl ?_ ?_ hReceiver
    · rw [hPc]
      rfl
    · rw [hPending, hPc] at hLaw
      exact hLaw.symm
  | @load c hPc hPending =>
    obtain rfl := Subsingleton.elim c 0
    rw [hPc] at hReceiver hCounted hLaw
    refine hs.goto_quiet hAccounted rfl rfl rfl rfl rfl ?_ ?_ hReceiver
    · rw [hPc]
      rfl
    · simp only [ClientPc.collected, List.length_nil, ClientPc.counts, ClientPc.owes] at hCounted hLaw
      simp only [ClientPc.WaitsForAll]
      omega
  | @lock c pending hPc hFree =>
    obtain rfl := Subsingleton.elim c 0
    rw [hPc] at hWaits
    refine hs.goto_quiet hAccounted rfl rfl rfl rfl rfl ?_ hWaits trivial
    rw [hPc]
    rfl
  | @receive c pending received completion completions hPc hLt hChannel =>
    obtain rfl := Subsingleton.elim c 0
    exact hs.receive hPc (goto_clients_self _ _ _) hChannel hAccounted
  | @disconnect c pending received hPc hLt hChannel hClosed =>
    obtain rfl := Subsingleton.elim c 0
    refine hs.goto_quiet hAccounted rfl rfl rfl rfl rfl ?_ ?_ rfl
    · rw [hPc]
      rfl
    · exact inFlight_of_channelClosed hChannel hClosed
  | @finish c pending received hPc hLe =>
    obtain rfl := Subsingleton.elim c 0
    rw [hPc] at hCounted hWaits
    refine hs.goto_quiet hAccounted rfl rfl rfl rfl rfl ?_ ?_ rfl
    · rw [hPc]
      rfl
    · simp only [ClientPc.WaitsForAll, ClientPc.collected] at hWaits hCounted ⊢
      omega
  | @uncount c pending received hPc =>
    obtain rfl := Subsingleton.elim c 0
    rw [hPc] at hWaits
    refine hs.goto_quiet hAccounted rfl rfl rfl rfl rfl ?_ hWaits trivial
    rw [hPc]
    rfl
  | @resume c received hPc =>
    obtain rfl := Subsingleton.elim c 0
    exact hs.resume hPc (goto_clients_self _ _ _) (Function.update_self _ _ _) hAccounted

/-- The only client cannot be where it is not. -/
theorem pc_eq_false {c : Fin 1} {pc : ClientPc} {is : ClientPc → Bool} (hPc : s.clients c = pc)
    (hNot : is pc = false) (h : is (s.clients 0) = true) : False := by
  rw [Subsingleton.elim 0 c, hPc, hNot] at h
  exact Bool.false_ne_true h

/-- Only a wait takes the client into one. -/
theorem sending_step (hSending : (s.clients 0).isSending = true) (hAct : ¬ act.Waits)
    (h : s.step act = some s') : (s'.clients 0).isSending = true := by
  cases step_cases h with
  | @sendUnit c item unit w hPc hUnit hClosed hRoom =>
    obtain rfl := Subsingleton.elim c 0
    rw [goto_clients_self]
    rfl
  | @count c hPc =>
    obtain rfl := Subsingleton.elim c 0
    rw [goto_clients_self]
    rfl
  | loadZero => exact absurd trivial hAct
  | load => exact absurd trivial hAct
  | lock hPc => exact (pc_eq_false hPc rfl hSending).elim
  | receive hPc => exact (pc_eq_false hPc rfl hSending).elim
  | disconnect hPc => exact (pc_eq_false hPc rfl hSending).elim
  | finish hPc => exact (pc_eq_false hPc rfl hSending).elim
  | uncount hPc => exact (pc_eq_false hPc rfl hSending).elim
  | resume hPc => exact (pc_eq_false hPc rfl hSending).elim
  | _ => exact hSending

/-! ## Every unit has its completion -/

theorem count_sentIds (sent : List (ℕ × String)) (w : ℕ) (id : String) :
    (sentIds sent w).count id = sent.count (w, id) := by
  induction sent with
  | nil => rfl
  | cons entry sent ih =>
    have hSplit : sentIds (entry :: sent) w = sentIds [entry] w ++ sentIds sent w :=
      sentIds_append [entry] sent w
    obtain ⟨v, other⟩ := entry
    rw [hSplit, List.count_append, ih, List.count_cons, sentIds_singleton]
    by_cases hw : w = v
    · subst hw
      simp [List.count_singleton, Nat.add_comm]
    · simp [hw, Ne.symm hw]

theorem idsOf_eq_sentIds (completions : List WorkCompletion) (w : ℕ) :
    idsOf completions w = sentIds (completions.map WorkCompletion.entry) w := by
  simp only [idsOf, sentIds, List.filter_map, List.map_map]
  rfl

/-- Worker by worker the same ids are the same entries up to their order. -/
theorem entries_perm {completions : List WorkCompletion} {sent : List (ℕ × String)}
    (hNamed : ∀ c ∈ completions, c.workerId < workerCount)
    (hSent : ∀ entry ∈ sent, entry.1 < workerCount)
    (hIds : ∀ w : Fin workerCount, idsOf completions w = sentIds sent w) :
    (completions.map WorkCompletion.entry).Perm sent := by
  rw [List.perm_iff_count]
  rintro ⟨w, id⟩
  rw [← count_sentIds, ← count_sentIds, ← idsOf_eq_sentIds]
  by_cases hw : w < workerCount
  · rw [hIds ⟨w, hw⟩]
  · have hNone : ∀ c ∈ completions, c.workerId ≠ w := by
      intro c hc hSame
      rw [← hSame] at hw
      exact hw (hNamed c hc)
    rw [idsOf_eq_nil hNone, count_sentIds, List.count_nil]
    symm
    apply List.count_eq_zero_of_not_mem
    intro hEntry
    exact hw (hSent _ hEntry)

/-- A client for which nothing is in flight any more has all its completions, or they are
in the channel. -/
theorem Inv.perm (hs : Inv s) (hBacklog : ∀ w, s.pool.backlogIds w = []) :
    (((s.clients 0).collected ++ s.pool.completions).map WorkCompletion.entry).Perm (s.sent 0) := by
  apply entries_perm hs.named hs.sentNamed
  intro w
  rw [← hs.conserved w, hBacklog w, List.append_nil]

/-! ## A wait returns -/

/-- While the client waits, itself or a worker has a step. -/
theorem Inv.exists_step (hs : Inv s) (hWaiting : (s.clients 0).isWaiting = true) :
    ∃ act s', s.step act = some s' := by
  have hWaits := hs.waits
  have hCounted := hs.counted
  have hReceiver := hs.receiver
  cases hPc : s.clients 0 with
  | locking pending =>
    rw [hPc] at hReceiver
    have hFree : s.receiver = none := hReceiver
    refine ⟨.proceed 0, Option.isSome_iff_exists.mp ?_⟩
    simp only [step, proceed, hPc, if_pos hFree]
    rfl
  | uncounting pending received =>
    refine ⟨.proceed 0, Option.isSome_iff_exists.mp ?_⟩
    rw [step, proceed, hPc]
    rfl
  | receiving pending received =>
    rw [hPc] at hWaits hCounted
    simp only [ClientPc.WaitsForAll, ClientPc.collected] at hWaits hCounted
    by_cases hLt : received.length < pending
    · cases hChannel : s.pool.completions with
      | cons completion completions =>
        refine ⟨.proceed 0, Option.isSome_iff_exists.mp ?_⟩
        simp only [step, proceed, hPc, if_pos hLt, receiveCompletion, hChannel]
        rfl
      | nil =>
        have hFlight : s.pool.inFlight ≠ 0 := by omega
        obtain ⟨w, pool, hWork⟩ := exists_workStep_of_inFlight hFlight hChannel
        refine ⟨.work w, Option.isSome_iff_exists.mp ?_⟩
        rw [step, hWork]
        rfl
    · refine ⟨.proceed 0, Option.isSome_iff_exists.mp ?_⟩
      simp only [step, proceed, hPc, if_neg hLt]
      rfl
  | _ =>
    rw [hPc] at hWaiting
    cases hWaiting

/-- An upper bound on the steps until the wait of a client returns. -/
def effort (s : PoolClients workerCount 1) (c : Fin 1) : ℕ := s.pool.effort + (s.clients c).effort

theorem effort_lt (hWaiting : (s.clients 0).isWaiting = true) (h : s.step act = some s') :
    s'.effort 0 < s.effort 0 := by
  unfold effort
  cases step_cases h with
  | @work w pool hWork => exact Nat.add_lt_add_right (workStep_effort_lt hWork) _
  | @lock c pending hPc hFree =>
    obtain rfl := Subsingleton.elim c 0
    simp only [goto, Function.update_self, hPc, ClientPc.effort, List.length_nil]
    omega
  | @receive c pending received completion completions hPc hLt hChannel =>
    obtain rfl := Subsingleton.elim c 0
    simp only [goto, Function.update_self, hPc, ClientPc.effort, List.length_append,
      List.length_singleton, AsyncWorkerPool.effort]
    omega
  | @disconnect c pending received hPc hLt hChannel hClosed =>
    obtain rfl := Subsingleton.elim c 0
    simp only [goto, Function.update_self, hPc, ClientPc.effort]
    omega
  | @finish c pending received hPc hLe =>
    obtain rfl := Subsingleton.elim c 0
    simp only [goto, Function.update_self, hPc, ClientPc.effort]
    omega
  | @uncount c pending received hPc =>
    obtain rfl := Subsingleton.elim c 0
    simp only [goto, Function.update_self, hPc, ClientPc.effort, AsyncWorkerPool.effort,
      uncountPending]
    omega
  | sendFails hPc => exact (pc_eq_false hPc rfl hWaiting).elim
  | sendShutdown hPc => exact (pc_eq_false hPc rfl hWaiting).elim
  | sendUnit hPc => exact (pc_eq_false hPc rfl hWaiting).elim
  | count hPc => exact (pc_eq_false hPc rfl hWaiting).elim
  | loadZero hPc => exact (pc_eq_false hPc rfl hWaiting).elim
  | load hPc => exact (pc_eq_false hPc rfl hWaiting).elim
  | resume hPc => exact (pc_eq_false hPc rfl hWaiting).elim

end Steps

/-! ## Main results -/

/-- What a wait that returns has to do with what was sent. -/
structure CompletesAll (s : PoolClients workerCount 1) (completions : List WorkCompletion) :
    Prop where
  each : (completions.map WorkCompletion.entry).Perm (s.sent 0)
  inOrder : ∀ w : Fin workerCount, idsOf completions w = sentIds (s.sent 0) w
  pendingWork : s.pool.pendingWork = 0
  channel : s.pool.completions = []
  locks : s.pool.globalLocks = ∅

/-- When a wait has returned nothing is in flight any more. -/
theorem Inv.completesAll {s : PoolClients workerCount 1} {completions : List WorkCompletion}
    (hs : Inv s) (hOpen : Open s.pool) (hPc : s.clients 0 = .returned completions) :
    CompletesAll s completions := by
  have hFlight : s.pool.inFlight = 0 := by
    have hWaits := hs.waits
    rw [hPc] at hWaits
    exact hWaits
  obtain ⟨hChannel, hBacklog⟩ := inFlight_eq_zero_iff.mp hFlight
  have hIds : ∀ w, s.pool.backlogIds w = [] := by
    intro w
    rw [backlogIds, hBacklog w]
    rfl
  have hCollected : (s.clients 0).collected ++ s.pool.completions = completions := by
    rw [hPc, hChannel, List.append_nil]
    rfl
  have hPerm := hs.perm hIds
  have hLaw := law_of_accounted hs.accounted
  rw [hCollected] at hPerm
  rw [hPc, hFlight] at hLaw
  refine ⟨hPerm, ?_, UInt64.toNat_inj.mp hLaw, hChannel, (hOpen.idle hs.locks hFlight).locks⟩
  intro w
  rw [← hs.conserved w, hCollected, hIds w, List.append_nil]

/-- A wait that has not returned yet does so: there is a step, and there are no more than
so many of them. -/
structure Returns (s : PoolClients workerCount 1) : Prop where
  progress : ∃ act s', s.step act = some s'
  bounded : ∀ acts t, run step s acts = some t →
    Along step (fun s _ => (s.clients 0).isWaiting = true) s acts → acts.length ≤ s.effort 0

/-- Without shutdowns, a wait returns the completions of all units sent since the previous
one and leaves nothing behind, and every wait returns. -/
theorem wait_returns_sent {acts : List (Act workerCount 1)} {s : PoolClients workerCount 1}
    (hUnits : ∀ act ∈ acts, ¬ act.SendsShutdown)
    (hRun : run step (new workerCount 1) acts = some s) :
    (∀ completions, s.clients 0 = .returned completions → CompletesAll s completions) ∧
      ((s.clients 0).isWaiting = true → Returns s) := by
  have hStart : Open (new workerCount 1).pool ∧ Inv (new workerCount 1) :=
    ⟨spawn_open workerCount, inv_new workerCount⟩
  have hReached : Open s.pool ∧ Inv s := by
    refine invariant_along (I := fun t => Open t.pool ∧ Inv t) ?_ hRun
      (Along.of_forall hUnits) hStart
    rintro t act t' ⟨hOpen, ht⟩ hUnit h
    exact ⟨open_step hOpen hUnit h, inv_step ht (not_behindShutdown hOpen) h⟩
  obtain ⟨hOpen, hs⟩ := hReached
  constructor
  · intro completions hPc
    exact hs.completesAll hOpen hPc
  · intro hWaiting
    refine ⟨hs.exists_step hWaiting, ?_⟩
    intro more t hMore hAlong
    have hLength := length_add_le_of_lowers (fun _ _ _ hWaiting h => effort_lt hWaiting h)
      hMore hAlong
    omega

/-- A client sends a unit and waits. Then it sends a bundle and a transaction to one worker and
to the other one a transaction that shares an account with the bundle, fails to send another
unit and waits again. -/
def twoRounds (c : Fin 1) (v w : Fin 2) : List (Act 2 1) :=
  let tx id := Transaction.new id [AccountMeta.new (Pubkey.filled 1) true] 1 1
  List.flatten [
    [.send c w (.transaction (tx "earlier")), .proceed c, .wait c, .proceed c],
    List.replicate 5 (.work w), List.replicate 4 (.proceed c),
    [.send c v (.bundle (Bundle.new 7 [tx "a", tx "b"] 1 "searcher")), .proceed c],
    [.send c w (.transaction (tx "beside")), .proceed c],
    [.send c v (.transaction (tx "after")), .proceed c],
    [.send c 2 (.transaction (tx "nowhere")), .wait c, .proceed c],
    List.replicate 2 (.work v), List.replicate 3 (.work w), List.replicate 9 (.work v),
    List.replicate 7 (.proceed c)]

/-- It gets the completions of the second round. -/
theorem wait_returns_sent_twoRounds :
    ∃ s, run step (new 2 1) (twoRounds 0 0 1) = some s ∧
      s.clients 0 = .returned [⟨1, "beside", false, some "Lock acquisition failed"⟩,
        ⟨0, "7", true, none⟩, ⟨0, "after", true, none⟩] ∧
      s.sent 0 = [(0, "7"), (1, "beside"), (0, "after")] ∧
      CompletesAll s [⟨1, "beside", false, some "Lock acquisition failed"⟩,
        ⟨0, "7", true, none⟩, ⟨0, "after", true, none⟩] := by
  have hUnits : ∀ act ∈ twoRounds 0 0 1, ¬ act.SendsShutdown := by decide
  have hSeen : (run step (new 2 1) (twoRounds 0 0 1)).map (fun s => (s.clients 0, s.sent 0)) =
      some (.returned [⟨1, "beside", false, some "Lock acquisition failed"⟩,
        ⟨0, "7", true, none⟩, ⟨0, "after", true, none⟩],
        [(0, "7"), (1, "beside"), (0, "after")]) := by
    decide +kernel
  obtain ⟨s, hRun, hState⟩ := Option.map_eq_some_iff.mp hSeen
  obtain ⟨hPc, hSent⟩ := Prod.mk.inj hState
  exact ⟨s, hRun, hPc, hSent, (wait_returns_sent hUnits hRun).1 _ hPc⟩

/-- Every unit that was sent is completed or will be: its completion is in the channel or
it is in the backlog of its worker, the counter does not stay up when the workers are done,
and they get done. -/
structure NothingLost (s : PoolClients workerCount 1) : Prop where
  conserved : ∀ w : Fin workerCount,
    idsOf s.pool.completions w ++ s.pool.backlogIds w = sentIds (s.sent 0) w
  safe : ¬ (s.pool.pendingWork ≠ 0 ∧ Blocked s.pool ∧ s.pool.completions = [])
  done : Blocked s.pool → (s.pool.completions.map WorkCompletion.entry).Perm (s.sent 0)
  progress : ¬ Blocked s.pool → ∃ w pool, s.pool.workStep w = some pool
  bounded : ∀ ws pool, run workStep s.pool ws = some pool → ws.length ≤ s.pool.effort

/-- As long as no unit is sent to a worker that has a shutdown queued or obeys one, nothing
that was sent is lost. -/
theorem nothing_lost {acts : List (Act workerCount 1)} {s : PoolClients workerCount 1}
    (hSending : ∀ act ∈ acts, ¬ act.Waits)
    (hRun : run step (new workerCount 1) acts = some s)
    (hSends : Along step (fun s act => ¬ BehindShutdown s act) (new workerCount 1) acts) :
    NothingLost s := by
  have hStart : Inv (new workerCount 1) ∧ ((new workerCount 1).clients 0).isSending = true :=
    ⟨inv_new workerCount, rfl⟩
  have hReached : Inv s ∧ (s.clients 0).isSending = true := by
    refine invariant_along (I := fun t => Inv t ∧ (t.clients 0).isSending = true) ?_ hRun
      (hSends.and_forall hSending) hStart
    rintro t act t' ⟨ht, hIdle⟩ ⟨hSend, hAct⟩ h
    exact ⟨inv_step ht hSend h, sending_step hIdle hAct h⟩
  obtain ⟨hs, hIdle⟩ := hReached
  have hCollected := (s.clients 0).collected_of_isSending hIdle
  have hOwes := (s.clients 0).owes_of_isSending hIdle
  have hLaw := law_of_accounted hs.accounted
  refine ⟨?_, ?_, ?_, exists_workStep_of_not_blocked, ?_⟩
  · intro w
    have hConserved := hs.conserved w
    rwa [hCollected] at hConserved
  · rintro ⟨hPending, hBlocked, hChannel⟩
    have hFlight := hBlocked.inFlight_eq_zero hChannel
    apply hPending
    apply UInt64.toNat_inj.mp
    rw [UInt64.toNat_zero]
    omega
  · intro hBlocked
    have hPerm := hs.perm fun w => by rw [backlogIds, (hBlocked w).backlog_eq]; rfl
    rwa [hCollected] at hPerm
  · intro ws pool hWork
    have hLength := length_add_le_of_lowers (P := fun _ _ => True)
      (fun _ _ _ _ h => workStep_effort_lt h) hWork (Along.of_forall fun _ _ => trivial)
    omega

/-- A unit and then a shutdown. -/
def unitFirst (c : Fin 1) (w : Fin 1) : List (Act 1 1) :=
  [.send c w (.transaction (Transaction.new "tx" [] 1 1)), .proceed c, .send c w .shutdown]

/-- The unit is not lost. -/
theorem nothing_lost_unitFirst :
    ∃ s, run step (new 1 1) (unitFirst 0 0) = some s ∧ s.sent 0 = [(0, "tx")] ∧ NothingLost s := by
  have hSending : ∀ act ∈ unitFirst 0 0, ¬ act.Waits := by decide
  have hFirst : ¬ (Act.send 0 0 (.transaction (Transaction.new "tx" [] 1 1)) :
    Act 1 1).SendsShutdown := by decide
  have hSecond : ¬ (Act.proceed 0 : Act 1 1).SendsShutdown := by decide
  have hSends : Along step (fun s act => ¬ BehindShutdown s act) (new 1 1) (unitFirst 0 0) := by
    have hOpen : Open (new 1 1).pool := spawn_open 1
    refine ⟨not_behindShutdown hOpen, fun s hs => ?_⟩
    have hNext := open_step hOpen hFirst hs
    refine ⟨not_behindShutdown hNext, fun s hs => ?_⟩
    exact ⟨not_behindShutdown (open_step hNext hSecond hs), fun _ _ => trivial⟩
  obtain ⟨s, hRun, hSent⟩ :
      ∃ s, run step (new 1 1) (unitFirst 0 0) = some s ∧ s.sent 0 = [(0, "tx")] :=
    ⟨_, rfl, rfl⟩
  exact ⟨s, hRun, hSent, nothing_lost hSending hRun hSends⟩

/-- A shutdown and then a unit; the worker stops with the unit in its queue. -/
def shutdownFirst (c : Fin 1) (w : Fin 1) : List (Act 1 1) :=
  [.send c w .shutdown, .send c w (.transaction (Transaction.new "tx" [] 1 1)), .proceed c,
    .work w, .work w]

/-- The unit is accepted, counted and lost. -/
theorem not_nothing_lost :
    ¬ ∀ (workerCount : ℕ) (acts : List (Act workerCount 1)) (s : PoolClients workerCount 1),
      (∀ act ∈ acts, ¬ act.Waits) → run step (new workerCount 1) acts = some s →
        NothingLost s := by
  intro hAll
  obtain ⟨s, hRun, hPending, hChannel, hWorker⟩ : ∃ s, run step (new 1 1) (shutdownFirst 0 0) = some s ∧
      s.pool.pendingWork = 1 ∧ s.pool.completions = [] ∧ s.pool.workers 0 = ⟨[], .stopped⟩ :=
    ⟨_, rfl, rfl, rfl, rfl⟩
  have hSending : ∀ act ∈ shutdownFirst 0 0, ¬ act.Waits := by decide
  apply (hAll 1 (shutdownFirst 0 0) s hSending hRun).safe
  refine ⟨by rw [hPending]; decide, ?_, hChannel⟩
  intro w
  obtain rfl := Subsingleton.elim w 0
  left
  rw [hWorker]

end PoolClients

end Blunder
