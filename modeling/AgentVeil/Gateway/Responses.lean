import AgentVeil.Gateway

/-!
# The handler of a request

What `responses` does between two turns, and the turns. The handler waits for the engine and for the
upstream; only there it may be dropped.
-/

namespace AgentVeil

open Rust

/-! ## Audit -/

/-- The arguments of `write_audit`. -/
structure AuditCall where
  eventId : Str
  requestSequence : UInt64
  decision : AuditDecision
  summary : Option ProtectionSummary
  upstreamOutcome : UpstreamOutcome
  scanLatencyMs : Nat
  deriving DecidableEq

def auditFindings : Option ProtectionSummary → List AuditFinding
  | none => []
  | some summary => summary.findings.map fun finding =>
      ⟨finding.detector, finding.dataClass, finding.confidence, finding.action, finding.sourceField,
        finding.count⟩

/-- The event that `write_audit` builds. -/
def GatewayState.auditEvent (state : GatewayState) (call : AuditCall) (unixMs : Nat) :
    Except AuditError AuditEvent :=
  AuditEvent.new call.eventId unixMs state.sessionPseudonym call.requestSequence call.decision
    (auditFindings call.summary) call.upstreamOutcome call.scanLatencyMs state.policyName
    state.policyHash version

structure DashboardActivity where
  requestSequence : UInt64
  timestampUnixMs : Nat
  decision : AuditDecision
  findings : List AuditFinding
  upstreamOutcome : UpstreamOutcome
  scanLatencyMs : Nat
  deriving DecidableEq

/-- The entry of the event's request with the outcome and the latency of the event, if there is one. -/
def updateActivity (event : AuditEvent) : List DashboardActivity → Option (List DashboardActivity)
  | [] => none
  | item :: rest =>
      if item.requestSequence = event.requestSequence then
        some ({ item with
          upstreamOutcome := event.upstreamOutcome
          scanLatencyMs := event.scanLatencyMs } :: rest)
      else (updateActivity event rest).map (item :: ·)

def recordDashboardActivity (activity : List DashboardActivity) (event : AuditEvent) :
    List DashboardActivity :=
  match updateActivity event activity with
  | some activity => activity
  | none =>
      (⟨event.requestSequence, event.timestampUnixMs, event.decision, event.findings,
        event.upstreamOutcome, event.scanLatencyMs⟩ :: activity).take dashboardActivityLimit

/-! ## Turns -/

/-- The part of `GatewayState` that requests share. -/
structure Shared (R : Type) where
  engine : PrivacyEngine R
  audit : AuditSink
  auditHealthy : Bool
  requestSequence : UInt64
  dashboardActivity : List DashboardActivity

/-- What is sent upstream. -/
structure UpstreamRequest where
  target : Url
  headers : HeaderMap
  body : List UInt8
  deriving DecidableEq

/-- What the handler does after a call of `write_audit`. -/
inductive Next where
  | respond (response : ErrorResponse)
  | send (request : UpstreamRequest)
  | relay

/-- Where the handler is, with the values it still needs. -/
inductive Handler where
  | arrived
  | admitted
  | numbered (eventId : Str) (requestSequence : UInt64)
  | auditing (call : AuditCall) (next : Next)
  | degraded (call : AuditCall) (next : Next)
  | recording (call : AuditCall) (event : AuditEvent) (next : Next)
  | sending (call : AuditCall) (request : UpstreamRequest)
  | waiting (call : AuditCall)
  | relaying
  | finished (response : Option ErrorResponse)

/-- What a turn shows. -/
inductive Observation where
  | refused (response : ErrorResponse)
  | admitted
  | numbered (requestSequence : UInt64)
  | protection (outcome : Except EngineError ProtectionOutcome)
  | panicked
  | cancelled
  | audited (event : AuditEvent)
  | unaudited (call : AuditCall) (appended : List UInt8)
  | degraded
  | recorded
  | sent (request : UpstreamRequest)
  | answered (reached : Bool)
  | restored
  | closed

/-- What the system and the upstream decide in a turn. -/
inductive Choice where
  | go
  | identify (random : Option (Fin 12 → UInt8))
  | protect (nowMs scanLatencyMs : Nat)
  | write (unixMs : Nat) (fate : WriteFate)
  | answer (reached : Bool)
  | restore (text : Str) (nowMs : Nat)
  | cancel

/-- The continuation of a call of `write_audit`, with its result. -/
def afterAudit (call : AuditCall) : Next → Bool → Handler
  | .respond response, _ => .finished (some response)
  | .relay, _ => .relaying
  | .send request, true => .sending call request
  | .send _, false =>
      .finished (some ⟨503, "agentveil_audit_unavailable",
        "AgentVeil failed closed because it could not record the protected request.",
        some call.eventId, some 0⟩)

/-- The call of `write_audit` after `protect`, and what follows it. -/
def GatewayState.judge (state : GatewayState) (headers : HeaderMap) (eventId : Str)
    (requestSequence : UInt64) (scanLatencyMs : Nat) :
    Except EngineError ProtectionOutcome → AuditCall × Next
  | .error error =>
      (⟨eventId, requestSequence, .rejected, none, .notStarted, scanLatencyMs⟩,
        .respond ⟨(engineErrorStatus error).1, (engineErrorStatus error).2,
          "AgentVeil could not safely inspect this Codex request. No request body was sent upstream.",
          some eventId, some 0⟩)
  | .ok (.blocked summary) =>
      (⟨eventId, requestSequence, .blocked, some summary, .notStarted, scanLatencyMs⟩,
        .respond ⟨422, "agentveil_blocked",
          "AgentVeil blocked this Codex request before it reached the remote model. Remove the credential or replace it with a safe reference.",
          some eventId, some 0⟩)
  | .ok (.forward forward) =>
      match upstreamUrl state.urls state.upstream headers .responses none with
      | .error _ =>
          (⟨eventId, requestSequence, auditDecision forward.decision, some forward.summary,
              .notStarted, scanLatencyMs⟩,
            .respond ⟨502, "agentveil_upstream_configuration",
              "AgentVeil could not select the fixed upstream. No request body was sent upstream.",
              some eventId, some 0⟩)
      | .ok target =>
          (⟨eventId, requestSequence, auditDecision forward.decision, some forward.summary, .pending,
              scanLatencyMs⟩,
            .send ⟨target, forwardRequestHeaders headers state.upstream true, forward.body⟩)

/-- The call of `write_audit` after the upstream's answer. -/
def afterAnswer (call : AuditCall) : Bool → AuditCall × Next
  | true => ({ call with upstreamOutcome := .started }, .relay)
  | false =>
      ({ call with upstreamOutcome := .failed },
        .respond ⟨502, "agentveil_upstream_unavailable",
          "AgentVeil could not reach the fixed upstream.", some call.eventId, none⟩)

def GatewayState.responses {R : Type} [RandomSource R] (state : GatewayState) (request : Request)
    (choice : Choice) (handler : Handler) (shared : Shared R) :
    Option (Observation × Handler × Shared R) :=
  match handler, choice with
  | .arrived, .go =>
      match state.precheck request.headers shared.auditHealthy with
      | .error response => some (.refused response, .finished (some response), shared)
      | .ok () => some (.admitted, .admitted, shared)
  | .admitted, .identify random =>
      match randomIdentifier "av_evt_" random with
      | none =>
          let response := ⟨503, "agentveil_random_unavailable",
            "AgentVeil failed closed because secure randomness is unavailable.", none, none⟩
          some (.refused response, .finished (some response), shared)
      | some eventId =>
          let requestSequence := shared.requestSequence + 1
          some (.numbered requestSequence, .numbered eventId requestSequence,
            { shared with requestSequence })
  | .numbered eventId requestSequence, .protect nowMs scanLatencyMs =>
      match shared.engine.protect state.unicode state.serde request.body state.scope nowMs with
      | (.error .panic, engine) => some (.panicked, .finished none, { shared with engine })
      | (.error (.err e), engine) =>
          let (call, next) :=
            state.judge request.headers eventId requestSequence scanLatencyMs (.error e)
          some (.protection (.error e), .auditing call next, { shared with engine })
      | (.ok outcome, engine) =>
          let (call, next) :=
            state.judge request.headers eventId requestSequence scanLatencyMs (.ok outcome)
          some (.protection (.ok outcome), .auditing call next, { shared with engine })
  | .auditing call next, .write unixMs fate =>
      match state.auditEvent call unixMs with
      | .error _ => some (.unaudited call [], .degraded call next, shared)
      | .ok event =>
          match AuditSink.write state.toVec event fate with
          | (.error _, appended) =>
              some (.unaudited call appended, .degraded call next,
                { shared with audit := ⟨shared.audit.file ++ appended⟩ })
          | (.ok (), appended) =>
              some (.audited event, .recording call event next,
                { shared with audit := ⟨shared.audit.file ++ appended⟩ })
  | .degraded call next, .go =>
      some (.degraded, afterAudit call next false, { shared with auditHealthy := false })
  | .recording call event next, .go =>
      some (.recorded, afterAudit call next true,
        { shared with
          dashboardActivity := recordDashboardActivity shared.dashboardActivity event })
  | .sending call request, .go => some (.sent request, .waiting call, shared)
  | .waiting call, .answer reached =>
      some (.answered reached, .auditing (afterAnswer call reached).1 (afterAnswer call reached).2,
        shared)
  | .relaying, .restore text nowMs =>
      if state.restorationMode = .disabled then none
      else
        some (.restored, .relaying,
          { shared with engine := (shared.engine.restoreDisplayText state.scope text nowMs).2 })
  | .relaying, .go => some (.closed, .finished none, shared)
  | .numbered _ _, .cancel | .waiting _, .cancel | .relaying, .cancel =>
      some (.cancelled, .finished none, shared)
  | _, _ => none

/-! ## The gateway -/

/-- Requests that are handled at the same time. -/
abbrev Gateway (ι R : Type) := Tasks ι (Shared R) Handler Observation

/-- The turns of the requests. -/
def GatewayState.turns {ι R : Type} [RandomSource R] (state : GatewayState) (requests : ι → Request) :
    ι → Choice → Handler → Shared R → Option (Observation × Handler × Shared R) :=
  fun i => state.responses (requests i)

/-- The gateway after `build_router`. -/
def Gateway.new {ι R : Type} (engine : PrivacyEngine R) (file : List UInt8) : Gateway ι R :=
  Tasks.start ⟨engine, ⟨file⟩, true, 0, []⟩ .arrived

end AgentVeil
