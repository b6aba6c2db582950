import Blunder.Core.Encoding
import Blunder.SchedulerExternal.Session

/-!
# What the client can read

Server and client read a stream up to one MiB. A request that the server could read has
an answer that the client can read: item by item, an assignment takes fewer bytes than
the item, whose id and kind it repeats.

* `response_within_readLimit`: the answer to one request.
* `reachable_responses_within_readLimit`: the answers of a session.
-/

namespace Blunder

open Foundation.Bincode Foundation.Transition

/-- The argument of `read_to_end`, on both sides. -/
def readLimit : ℕ := 1024 * 1024

namespace RoundRobinScheduler

theorem length_encode_assignment_le (item : ExecutionUnitData) (workerId : ℕ) :
    (encode (item.assignment workerId)).length ≤ (encode item).length := by
  rw [WorkerAssignment.length_encode, ExecutionUnitData.length_encode]
  rw [show (item.assignment workerId).unitId = item.id from rfl]
  omega

theorem length_encode_schedule_le (s : RoundRobinScheduler) (items : List ExecutionUnitData)
    (workerCount : ℕ) :
    (encode (s.schedule items workerCount).2).length ≤ (encode items).length := by
  cases workerCount with
  | zero =>
    rw [show (s.schedule items 0).2 = [] from rfl, length_encode_list, length_encode_list]
    exact Nat.add_le_add_left (Nat.zero_le _) 8
  | succ n =>
    refine length_encode_list_le ((s.schedule_forall₂ items (Nat.succ_pos n)).imp ?_)
    intro item a ha
    obtain ⟨w, -, rfl⟩ := ha
    exact length_encode_assignment_le item w

theorem length_response_le (s : RoundRobinScheduler) (requestId : UInt64)
    (items : List ExecutionUnitData) (workerCount : ℕ) :
    (serializeMessage
        (SchedulerMessage.scheduleResponse requestId (s.schedule items workerCount).2)).length ≤
      (serializeMessage (EngineMessage.scheduleRequest requestId items workerCount)).length := by
  have hItems := s.length_encode_schedule_le items workerCount
  rw [length_scheduleResponse, length_scheduleRequest]
  omega

/-- The answer to a request within the server's limit is within the client's limit. -/
theorem response_within_readLimit (s : RoundRobinScheduler) (requestId : UInt64)
    (items : List ExecutionUnitData) (workerCount : ℕ)
    (hRead : (serializeMessage
      (EngineMessage.scheduleRequest requestId items workerCount)).length ≤ readLimit) :
    (serializeMessage
      (SchedulerMessage.scheduleResponse requestId (s.schedule items workerCount).2)).length ≤
        readLimit :=
  (s.length_response_le requestId items workerCount).trans hRead

/-- A request for one bundle. -/
theorem response_within_readLimit_bundle :
    let items := [ExecutionUnitData.bundle "bundle1" 100000 [(Pubkey.filled 1).toBytes] 3]
    (serializeMessage (SchedulerMessage.scheduleResponse 1 (new.schedule items 4).2)).length ≤
      readLimit := by
  intro items
  refine new.response_within_readLimit 1 items 4 ?_
  rw [length_scheduleRequest, length_encode_list]
  simp only [items, List.map_cons, List.map_nil, List.sum_cons, List.sum_nil,
    ExecutionUnitData.length_encode]
  decide

end RoundRobinScheduler

/-- Whatever message the server could read, the client can read the answer. -/
theorem handleConnection_within_readLimit (scheduler : RoundRobinScheduler)
    {message : EngineMessage} {response : SchedulerMessage}
    (hRead : (serializeMessage message).length ≤ readLimit)
    (hAnswer : (handleConnection scheduler message).2 = some response) :
    (serializeMessage response).length ≤ readLimit := by
  cases message with
  | scheduleRequest requestId items workerCount =>
    cases hAnswer
    exact (scheduler.length_response_le requestId items workerCount).trans hRead
  | workerCompleted workerId itemId success computeUnits => cases hAnswer
  | heartbeat timestampUs =>
    cases hAnswer
    rw [length_heartbeatAck]
    decide

/-- As long as the server could read all requests, the client can read all answers. -/
theorem reachable_responses_within_readLimit {s : SchedulerSession}
    (h : Reachable SchedulerSession.step SchedulerSession.new s)
    (hRead : ∀ call ∈ s.client.calls, (serializeMessage call.request).length ≤ readLimit) :
    ∀ response ∈ s.responses, (serializeMessage response).length ≤ readLimit := by
  have hInv : s.Inv := h.invariant (fun _ _ _ hs hStep => SchedulerSession.step_inv hs hStep)
    SchedulerSession.new_inv
  intro response hResponse
  cases response with
  | scheduleResponse requestId assignments =>
    obtain ⟨call, hCall, rfl, scheduler, rfl⟩ := hInv.answered requestId assignments hResponse
    exact (scheduler.length_response_le _ _ _).trans (hRead call hCall)
  | heartbeatAck timestampUs =>
    rw [length_heartbeatAck]
    decide
  | ready =>
    rw [length_ready]
    decide

end Blunder
