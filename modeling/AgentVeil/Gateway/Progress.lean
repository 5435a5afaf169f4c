import AgentVeil.Gateway.Theorems

/-!
# Every request can finish

No request of a gateway waits for another one: whatever the others have done to the engine, the audit
file and the health flag, a request comes to its end by a few turns of its own.
-/

namespace AgentVeil

open Rust

/-! ## How far a handler is from its end -/

def Next.rank : Next → Nat
  | .respond _ => 0
  | .relay => 1
  | .send _ => 5

/-- The turns that a handler may still take, but for those that restore. -/
def Handler.rank : Handler → Nat
  | .arrived => 10
  | .admitted => 9
  | .numbered _ _ => 8
  | .auditing _ next => next.rank + 2
  | .degraded _ next | .recording _ _ next => next.rank + 1
  | .sending _ _ => 5
  | .waiting _ => 4
  | .relaying => 1
  | .finished _ => 0

def Observation.isRestored : Observation → Bool
  | .restored => true
  | _ => false

theorem Handler.finished_of_rank {handler : Handler} (h : handler.rank = 0) :
    ∃ response, handler = .finished response := by
  cases handler with
  | finished response => exact ⟨response, rfl⟩
  | auditing | degraded | recording => simp [Handler.rank] at h
  | _ => cases h

theorem rank_afterAudit (call : AuditCall) (next : Next) (written : Bool) :
    (afterAudit call next written).rank ≤ next.rank := by
  cases next with
  | respond | relay => exact Nat.le_refl _
  | send =>
      cases written with
      | true => exact Nat.le_refl _
      | false => exact Nat.zero_le _

theorem rank_afterAnswer (call : AuditCall) (reached : Bool) :
    (afterAnswer call reached).2.rank ≤ 1 := by
  cases reached with
  | true => exact Nat.le_refl _
  | false => exact Nat.zero_le _

variable {ι R : Type} [RandomSource R] {state : GatewayState} {request : Request}
  {requests : ι → Request} {engine : PrivacyEngine R} {file : List UInt8}

theorem rank_judge (headers : HeaderMap) (eventId : Str) (n : UInt64) (scanLatencyMs : Nat)
    (outcome : Except EngineError ProtectionOutcome) :
    (state.judge headers eventId n scanLatencyMs outcome).2.rank ≤ 5 := by
  cases outcome with
  | error => exact Nat.zero_le _
  | ok outcome =>
      cases outcome with
      | blocked => exact Nat.zero_le _
      | forward =>
          unfold GatewayState.judge
          cases upstreamUrl state.urls state.upstream headers .responses none with
          | error => exact Nat.zero_le _
          | ok => exact Nat.le_refl _

/-- Every turn comes closer to the end, but for those that restore. -/
theorem rank_turn {choice : Choice} {handler handler' : Handler} {shared shared' : Shared R}
    {o : Observation}
    (move : state.responses request choice handler shared = some (o, handler', shared')) :
    (o.isRestored = true ∧ handler'.rank = handler.rank) ∨ handler'.rank < handler.rank := by
  unfold GatewayState.responses at move
  split at move
  · split at move
    · cases move; exact .inr (by simp [Handler.rank])
    · cases move; exact .inr (by simp [Handler.rank])
  · split at move
    · cases move; exact .inr (by simp [Handler.rank])
    · cases move; exact .inr (by simp [Handler.rank])
  · have hjudge := @rank_judge state request.headers
    split at move
    · cases move; exact .inr (by simp [Handler.rank])
    · cases move; exact .inr (by simp [Handler.rank, Next.rank])
    · cases move; exact .inr (Nat.lt_succ_of_le (Nat.add_le_add_right (hjudge _ _ _ _) 2))
  · split at move
    · cases move; exact .inr (Nat.lt_succ_self _)
    · split at move
      · cases move; exact .inr (Nat.lt_succ_self _)
      · cases move; exact .inr (Nat.lt_succ_self _)
  · cases move; exact .inr (Nat.lt_succ_of_le (rank_afterAudit _ _ _))
  · cases move; exact .inr (Nat.lt_succ_of_le (rank_afterAudit _ _ _))
  · cases move; exact .inr (by simp [Handler.rank])
  · cases move; exact .inr (Nat.lt_succ_of_le (Nat.add_le_add_right (rank_afterAnswer _ _) 2))
  · split at move
    · cases move
    · cases move; exact .inl ⟨rfl, rfl⟩
  · cases move; exact .inr (by simp [Handler.rank])
  · cases move; exact .inr (by simp [Handler.rank])
  · cases move; exact .inr (by simp [Handler.rank])
  · cases move; exact .inr (by simp [Handler.rank])
  · cases move

/-- The choice that moves a handler on, whatever is shared. -/
def Handler.onward : Handler → Choice
  | .admitted => .identify none
  | .numbered _ _ => .protect 0 0
  | .auditing _ _ => .write 0 .durable
  | .waiting _ => .answer true
  | _ => .go

/-- A handler that has not finished can move on, whatever the others leave it. -/
theorem exists_turn {handler : Handler} (shared : Shared R) (h : handler.rank ≠ 0) :
    ∃ choice o handler' shared',
      state.responses request choice handler shared = some (o, handler', shared') ∧
        handler'.rank < handler.rank := by
  have hmoves : ∃ o handler' shared',
      state.responses request handler.onward handler shared = some (o, handler', shared') ∧
        o.isRestored = false := by
    cases handler with
    | arrived =>
        simp only [Handler.onward, GatewayState.responses]
        split
        · exact ⟨_, _, _, rfl, rfl⟩
        · exact ⟨_, _, _, rfl, rfl⟩
    | numbered =>
        simp only [Handler.onward, GatewayState.responses]
        split
        · exact ⟨_, _, _, rfl, rfl⟩
        · exact ⟨_, _, _, rfl, rfl⟩
        · exact ⟨_, _, _, rfl, rfl⟩
    | auditing =>
        simp only [Handler.onward, GatewayState.responses]
        split
        · exact ⟨_, _, _, rfl, rfl⟩
        · split
          · exact ⟨_, _, _, rfl, rfl⟩
          · exact ⟨_, _, _, rfl, rfl⟩
    | finished => exact absurd rfl h
    | _ => exact ⟨_, _, _, rfl, rfl⟩
  obtain ⟨o, handler', shared', move, hnot⟩ := hmoves
  rcases rank_turn move with ⟨hrestored, _⟩ | hlower
  · rw [hnot] at hrestored
    cases hrestored
  · exact ⟨_, o, handler', shared', move, hlower⟩

/-! ## Runs -/

variable [DecidableEq ι] {meets : Gateway ι R → ι → Choice → Prop} {gateway : Gateway ι R}

/-- In whatever state the gateway is, a request has shown a few events only, but for those that restore,
and it can finish by turns of its own that leave every other request where it is; all its events together
are at most ten. -/
theorem requests_finish (h : Tasks.Run (state.turns requests) meets (Gateway.new engine file) gateway)
    (i : ι) : ∃ choices : List Choice,
      (events i gateway.log).countP (fun o => !o.isRestored) + choices.length ≤ 10 ∧
      ∃ gateway', Tasks.exec (state.turns requests) gateway (choices.map (i, ·)) = some gateway' ∧
        (∃ response, gateway'.locals i = .finished response) ∧
        ∀ j, j ≠ i → gateway'.locals j = gateway.locals j := by
  have hbound := h.rank_bound Handler.rank Observation.isRestored
    (fun _ _ _ _ _ _ _ move => rank_turn move) i
  obtain ⟨choices, hlen, gateway', hexec, hend, hothers⟩ :=
    @Tasks.exec_finishes _ _ _ _ _ _ (state.turns requests) Handler.rank i
      (fun _ shared hrank => exists_turn shared hrank) gateway
  refine ⟨choices, ?_, gateway', hexec, Handler.finished_of_rank hend, hothers⟩
  exact Nat.le_trans (Nat.add_le_add_left hlen _) hbound

theorem requests_finish_demo : ∃ (gateway gateway' : Gateway Nat CounterRandom) (choices : List Choice),
    gateway.log.any (·.2.isSent) = true ∧
      Tasks.exec (demoGateway.turns demoRequests) gateway (choices.map (1, ·)) = some gateway' ∧
      ∃ response, gateway'.locals 1 = .finished response := by
  obtain ⟨gateway, hreach, hsent⟩ := exists_sent
  obtain ⟨choices, _, gateway', hexec, hfinished, _⟩ := requests_finish hreach 1
  exact ⟨gateway, gateway', choices, hsent, hexec, hfinished⟩

end AgentVeil
