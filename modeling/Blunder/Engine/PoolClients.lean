import Blunder.Engine.Backlog

/-!
# Clients that share a pool

Any number of clients call `send_work` and `wait_for_completions` on one pool. A send
puts the item in the channel and counts it in a second step. A wait loads the counter,
then locks the receiver, then receives as many completions as it has loaded; each is
uncounted in a step of its own. The workers run between any two steps.

The items in the channels, the workers and the clients are distinct objects in memory. A
send for which there is no room left does not return.
-/

namespace Blunder

open Foundation.Transition AsyncWorkerPool

/-- Where a client is. `returned` holds what its last wait has returned. -/
inductive ClientPc
  | idle
  | counting
  | locking (pending : ℕ)
  | receiving (pending : ℕ) (completions : List WorkCompletion)
  | uncounting (pending : ℕ) (completions : List WorkCompletion)
  | returned (completions : List WorkCompletion)
deriving DecidableEq

/-- `receiver` is the client that holds the lock of the completion channel. `sent` is a
record of the units that a client has sent since its previous wait, with their workers. -/
structure PoolClients (workerCount clientCount : ℕ) where
  pool : AsyncWorkerPool workerCount
  clients : Fin clientCount → ClientPc
  receiver : Option (Fin clientCount)
  sent : Fin clientCount → List (ℕ × String)

namespace PoolClients

variable {workerCount clientCount : ℕ}

/-! ## Steps -/

def new (workerCount clientCount : ℕ) : PoolClients workerCount clientCount where
  pool := spawn workerCount
  clients _ := .idle
  receiver := none
  sent _ := []

def goto (s : PoolClients workerCount clientCount) (c : Fin clientCount) (pc : ClientPc) :
    PoolClients workerCount clientCount :=
  { s with clients := Function.update s.clients c pc }

@[simp] theorem goto_clients_self (s : PoolClients workerCount clientCount) (c : Fin clientCount)
    (pc : ClientPc) : (s.goto c pc).clients c = pc :=
  Function.update_self _ _ _

/-- The channel send of `send_work`. A shutdown is not counted. -/
def sendWork (s : PoolClients workerCount clientCount) (c : Fin clientCount) (workerId : ℕ)
    (item : WorkItem) : Option (PoolClients workerCount clientCount) :=
  match s.pool.send workerId item with
  | .error _ => some s
  | .ok pool =>
    if s.pool.inFlight + clientCount + 1 < UInt64.size then
      match item.unit? with
      | none => some { s with pool }
      | some unit =>
        some { s.goto c .counting with
          pool
          sent := Function.update s.sent c (s.sent c ++ [(workerId, unit.unitId)]) }
    else none

/-- All senders of the completion channel are gone. -/
def ChannelClosed (s : PoolClients workerCount clientCount) : Prop :=
  ∀ w, s.pool.isClosed w = true

instance (s : PoolClients workerCount clientCount) : Decidable s.ChannelClosed :=
  inferInstanceAs (Decidable (∀ w, s.pool.isClosed w = true))

/-- The next step of a client inside `send_work` or `wait_for_completions`. -/
def proceed (s : PoolClients workerCount clientCount) (c : Fin clientCount) :
    Option (PoolClients workerCount clientCount) :=
  match s.clients c with
  | .idle => none
  | .counting => some { s.goto c .idle with pool := s.pool.countPending }
  | .locking pending =>
    if s.receiver = none then some { s.goto c (.receiving pending []) with receiver := some c }
    else none
  | .receiving pending completions =>
    if completions.length < pending then
      match s.pool.receiveCompletion with
      | some (completion, pool) =>
        some { s.goto c (.uncounting pending (completions ++ [completion])) with pool }
      | none =>
        if s.ChannelClosed then some { s.goto c (.returned completions) with receiver := none }
        else none
    else some { s.goto c (.returned completions) with receiver := none }
  | .uncounting pending completions =>
    some { s.goto c (.receiving pending completions) with pool := s.pool.uncountPending }
  | .returned _ => some { s.goto c .idle with sent := Function.update s.sent c [] }

inductive Act (workerCount clientCount : ℕ)
  | work (w : Fin workerCount)
  | send (c : Fin clientCount) (workerId : ℕ) (item : WorkItem)
  | wait (c : Fin clientCount)
  | proceed (c : Fin clientCount)

def step (s : PoolClients workerCount clientCount) :
    Act workerCount clientCount → Option (PoolClients workerCount clientCount)
  | .work w => (s.pool.workStep w).map fun pool => { s with pool }
  | .send c workerId item =>
    match s.clients c with
    | .idle => s.sendWork c workerId item
    | _ => none
  | .wait c =>
    match s.clients c with
    | .idle =>
      if s.pool.pendingWork = 0 then some (s.goto c (.returned []))
      else some (s.goto c (.locking s.pool.pendingWork.toNat))
    | _ => none
  | .proceed c => s.proceed c

/-- What a step does. -/
inductive Step (s : PoolClients workerCount clientCount) :
    Act workerCount clientCount → PoolClients workerCount clientCount → Prop
  | work {w pool} (hWork : s.pool.workStep w = some pool) : Step s (.work w) { s with pool }
  | sendFails {c workerId item} (hPc : s.clients c = .idle) : Step s (.send c workerId item) s
  | sendShutdown {c} {w : Fin workerCount} (hPc : s.clients c = .idle) :
    Step s (.send c w .shutdown) { s with pool := s.pool.enqueue w .shutdown }
  | sendUnit {c item unit} {w : Fin workerCount} (hPc : s.clients c = .idle)
      (hUnit : item.unit? = some unit) (hClosed : s.pool.isClosed w = false)
      (hRoom : s.pool.inFlight + clientCount + 1 < UInt64.size) :
    Step s (.send c w item) { s.goto c .counting with
      pool := s.pool.enqueue w item
      sent := Function.update s.sent c (s.sent c ++ [(w.val, unit.unitId)]) }
  | count {c} (hPc : s.clients c = .counting) :
    Step s (.proceed c) { s.goto c .idle with pool := s.pool.countPending }
  | loadZero {c} (hPc : s.clients c = .idle) (hPending : s.pool.pendingWork = 0) :
    Step s (.wait c) (s.goto c (.returned []))
  | load {c} (hPc : s.clients c = .idle) (hPending : s.pool.pendingWork ≠ 0) :
    Step s (.wait c) (s.goto c (.locking s.pool.pendingWork.toNat))
  | lock {c pending} (hPc : s.clients c = .locking pending) (hReceiver : s.receiver = none) :
    Step s (.proceed c) { s.goto c (.receiving pending []) with receiver := some c }
  | receive {c pending received completion completions}
      (hPc : s.clients c = .receiving pending received) (hLt : received.length < pending)
      (hChannel : s.pool.completions = completion :: completions) :
    Step s (.proceed c) { s.goto c (.uncounting pending (received ++ [completion])) with
      pool := { s.pool with completions } }
  | disconnect {c pending received} (hPc : s.clients c = .receiving pending received)
      (hLt : received.length < pending) (hChannel : s.pool.completions = [])
      (hClosed : s.ChannelClosed) :
    Step s (.proceed c) { s.goto c (.returned received) with receiver := none }
  | finish {c pending received} (hPc : s.clients c = .receiving pending received)
      (hLe : pending ≤ received.length) :
    Step s (.proceed c) { s.goto c (.returned received) with receiver := none }
  | uncount {c pending received} (hPc : s.clients c = .uncounting pending received) :
    Step s (.proceed c)
      { s.goto c (.receiving pending received) with pool := s.pool.uncountPending }
  | resume {c received} (hPc : s.clients c = .returned received) :
    Step s (.proceed c) { s.goto c .idle with sent := Function.update s.sent c [] }

section Steps

variable {s s' : PoolClients workerCount clientCount} {act : Act workerCount clientCount}

theorem sendWork_cases {c : Fin clientCount} {workerId : ℕ} {item : WorkItem}
    (hPc : s.clients c = .idle) (h : s.sendWork c workerId item = some s') :
    Step s (.send c workerId item) s' := by
  rw [sendWork] at h
  rcases send_cases s.pool workerId item with ⟨w, rfl, hClosed, hSend⟩ | ⟨e, hSend⟩
  · rw [hSend] at h
    dsimp only at h
    split at h
    · rename_i hRoom
      cases hUnit : item.unit? with
      | none =>
        rw [hUnit] at h
        cases h
        cases item with
        | shutdown => exact Step.sendShutdown hPc
        | _ => cases hUnit
      | some unit =>
        rw [hUnit] at h
        cases h
        exact Step.sendUnit hPc hUnit hClosed hRoom
    · cases h
  · rw [hSend] at h
    cases h
    exact Step.sendFails hPc

theorem proceed_cases {c : Fin clientCount} (h : s.proceed c = some s') :
    Step s (.proceed c) s' := by
  unfold proceed at h
  split at h
  · cases h
  · rename_i hPc
    cases h
    exact Step.count hPc
  · rename_i pending hPc
    split at h
    · rename_i hReceiver
      cases h
      exact Step.lock hPc hReceiver
    · cases h
  · rename_i pending received hPc
    split at h
    · rename_i hLt
      unfold receiveCompletion at h
      split at h
      · rename_i completion pool hReceive
        split at hReceive
        · cases hReceive
        · rename_i _ _ hChannel
          cases hReceive
          cases h
          exact Step.receive hPc hLt hChannel
      · rename_i hReceive
        split at h
        · rename_i hClosed
          cases h
          refine Step.disconnect hPc hLt ?_ hClosed
          split at hReceive
          · assumption
          · cases hReceive
        · cases h
    · rename_i hNotLt
      cases h
      exact Step.finish hPc (Nat.le_of_not_lt hNotLt)
  · rename_i pending received hPc
    cases h
    exact Step.uncount hPc
  · rename_i received hPc
    cases h
    exact Step.resume hPc

theorem step_cases (h : s.step act = some s') : Step s act s' := by
  cases act with
  | work w =>
    obtain ⟨pool, hWork, rfl⟩ := Option.map_eq_some_iff.mp h
    exact Step.work hWork
  | send c workerId item =>
    rw [step] at h
    split at h
    · rename_i hPc
      exact sendWork_cases hPc h
    · cases h
  | wait c =>
    rw [step] at h
    split at h
    · rename_i hPc
      split at h
      · rename_i hPending
        cases h
        exact Step.loadZero hPc hPending
      · rename_i hPending
        cases h
        exact Step.load hPc hPending
    · cases h
  | proceed c => exact proceed_cases h

end Steps

end PoolClients

end Blunder
