import AgentVeil.Gateway.Responses

/-!
# The course of one request

What one request can show, whatever the others do: `Course` lists where the handler can be after which
events. Every turn of the handler follows it.
-/

namespace AgentVeil

open Rust

/-! ## One call of `write_audit` -/

/-- The events of a call of `write_audit`, by its result. -/
inductive Audits (state : GatewayState) (call : AuditCall) : Bool → List Observation → Prop where
  | written {event unixMs} (valid : state.auditEvent call unixMs = .ok event) :
      Audits state call true [.audited event, .recorded]
  | failed {appended} : Audits state call false [.unaudited call appended, .degraded]

/-- The rows that were written, in order. -/
def rows (os : List Observation) : List AuditEvent :=
  os.filterMap fun
    | .audited event => some event
    | _ => none

theorem rows_append (os os' : List Observation) : rows (os ++ os') = rows os ++ rows os' := by
  simp [rows]

/-- The event of a call has the fields of the call. -/
theorem auditEvent_ok {state : GatewayState} {call : AuditCall} {unixMs : Nat} {event : AuditEvent}
    (h : state.auditEvent call unixMs = .ok event) :
    event.eventId = call.eventId ∧ event.requestSequence = call.requestSequence ∧
      event.decision = call.decision ∧ event.findings = auditFindings call.summary ∧
      event.upstreamOutcome = call.upstreamOutcome := by
  unfold GatewayState.auditEvent AuditEvent.new at h
  split at h
  · cases h
  · cases h
    exact ⟨rfl, rfl, rfl, rfl, rfl⟩

/-! ## Courses -/

section Course

variable (state : GatewayState) (request : Request)

/-- The request passes all checks, and the health flag holds. -/
def Admissible : Prop := state.precheck request.headers true = .ok ()

/-- The events up to the outcome of `protect`. -/
def opening (requestSequence : UInt64) (outcome : Except EngineError ProtectionOutcome) :
    List Observation :=
  [.admitted, .numbered requestSequence, .protection outcome]

/-- The events before a call of `write_audit`, and what follows the call. -/
inductive Asks : List Observation → AuditCall → Next → Prop where
  /-- The call after `protect`. -/
  | judged {eventId requestSequence scanLatencyMs outcome} (admissible : Admissible state request) :
      Asks (opening requestSequence outcome)
        (state.judge request.headers eventId requestSequence scanLatencyMs outcome).1
        (state.judge request.headers eventId requestSequence scanLatencyMs outcome).2
  /-- The call after the upstream's answer. -/
  | answered {os call upstream ws reached} (asks : Asks os call (.send upstream))
      (audits : Audits state call true ws) :
      Asks (os ++ ws ++ [.sent upstream, .answered reached]) (afterAnswer call reached).1
        (afterAnswer call reached).2

/-- Where the handler is after which events. -/
inductive Course : Handler → List Observation → Prop where
  | arrived : Course .arrived []
  | refused {response} : Course (.finished response) [.refused response']
  | admitted (admissible : Admissible state request) : Course .admitted [.admitted]
  | unidentified {response} : Course (.finished response) [.admitted, .refused response']
  | numbered {eventId requestSequence} (admissible : Admissible state request) :
      Course (.numbered eventId requestSequence) [.admitted, .numbered requestSequence]
  | dropped {requestSequence o} (ends : o = .panicked ∨ o = .cancelled) :
      Course (.finished none) [.admitted, .numbered requestSequence, o]
  | auditing {os call next} (asks : Asks state request os call next) :
      Course (.auditing call next) os
  | degraded {os call next appended} (asks : Asks state request os call next) :
      Course (.degraded call next) (os ++ [.unaudited call appended])
  | recording {os call event next unixMs} (asks : Asks state request os call next)
      (valid : state.auditEvent call unixMs = .ok event) :
      Course (.recording call event next) (os ++ [.audited event])
  | responded {os call response ws written} (asks : Asks state request os call (.respond response))
      (audits : Audits state call written ws) : Course (.finished (some response)) (os ++ ws)
  | unrecorded {os call upstream ws response} (asks : Asks state request os call (.send upstream))
      (audits : Audits state call false ws) : Course (.finished response) (os ++ ws)
  | sending {os call upstream ws} (asks : Asks state request os call (.send upstream))
      (audits : Audits state call true ws) : Course (.sending call upstream) (os ++ ws)
  | waiting {os call upstream ws} (asks : Asks state request os call (.send upstream))
      (audits : Audits state call true ws) : Course (.waiting call) (os ++ ws ++ [.sent upstream])
  | abandoned {os call upstream ws} (asks : Asks state request os call (.send upstream))
      (audits : Audits state call true ws) :
      Course (.finished none) (os ++ ws ++ [.sent upstream, .cancelled])
  | relaying {os call ws written n} (asks : Asks state request os call .relay)
      (audits : Audits state call written ws) :
      Course .relaying (os ++ ws ++ List.replicate n .restored)
  | relayed {os call ws written n o} (asks : Asks state request os call .relay)
      (audits : Audits state call written ws) (ends : o = .closed ∨ o = .cancelled) :
      Course (.finished none) (os ++ ws ++ List.replicate n .restored ++ [o])

end Course

variable {R : Type} [RandomSource R] {state : GatewayState} {request : Request}

/-- The end of a call of `write_audit`. -/
theorem Asks.after {os ws : List Observation} {call : AuditCall} {next : Next} {written : Bool}
    (asks : Asks state request os call next) (audits : Audits state call written ws) :
    Course state request (afterAudit call next written) (os ++ ws) := by
  cases next with
  | respond response => exact .responded asks audits
  | relay =>
      have hrelay : Course state request .relaying (os ++ ws) := by
        simpa using Course.relaying (n := 0) asks audits
      cases written with
      | true => exact hrelay
      | false => exact hrelay
  | send upstream =>
      cases written with
      | true => exact .sending asks audits
      | false => exact .unrecorded asks audits

/-- Every turn follows the course. -/
theorem Course.turn {choice : Choice} {handler handler' : Handler} {shared shared' : Shared R}
    {os : List Observation} {o : Observation} (h : Course state request handler os)
    (move : state.responses request choice handler shared = some (o, handler', shared')) :
    Course state request handler' (os ++ [o]) := by
  cases h with
  | arrived =>
      cases choice with
      | go =>
          simp only [GatewayState.responses] at move
          split at move
          · cases move
            exact .refused
          · rename_i hadmit
            cases move
            cases hflag : shared.auditHealthy with
            | true =>
                rw [hflag] at hadmit
                exact .admitted hadmit
            | false =>
                rw [hflag] at hadmit
                simp only [GatewayState.precheck] at hadmit
                split at hadmit
                · cases hadmit
                · cases hadmit
      | _ => cases move
  | admitted admissible =>
      cases choice with
      | identify random =>
          simp only [GatewayState.responses] at move
          split at move
          · cases move
            exact .unidentified
          · cases move
            exact .numbered admissible
      | _ => cases move
  | numbered admissible =>
      cases choice with
      | protect nowMs scanLatencyMs =>
          simp only [GatewayState.responses] at move
          split at move
          · cases move
            exact .dropped (.inl rfl)
          · cases move
            exact .auditing (.judged admissible)
          · cases move
            exact .auditing (.judged admissible)
      | cancel =>
          cases move
          exact .dropped (.inr rfl)
      | _ => cases move
  | auditing asks =>
      cases choice with
      | write unixMs fate =>
          simp only [GatewayState.responses] at move
          split at move
          · cases move
            exact .degraded asks
          · rename_i event hevent
            split at move
            · cases move
              exact .degraded asks
            · cases move
              exact .recording asks hevent
      | _ => cases move
  | degraded asks =>
      cases choice with
      | go =>
          cases move
          rw [List.append_assoc]
          exact asks.after .failed
      | _ => cases move
  | recording asks valid =>
      cases choice with
      | go =>
          cases move
          rw [List.append_assoc]
          exact asks.after (.written valid)
      | _ => cases move
  | sending asks audits =>
      cases choice with
      | go =>
          cases move
          exact .waiting asks audits
      | _ => cases move
  | waiting asks audits =>
      cases choice with
      | answer reached =>
          cases move
          rw [List.append_assoc]
          exact .auditing (.answered asks audits)
      | cancel =>
          cases move
          rw [List.append_assoc]
          exact .abandoned asks audits
      | _ => cases move
  | relaying asks audits =>
      cases choice with
      | restore text nowMs =>
          simp only [GatewayState.responses] at move
          split at move
          · cases move
          · cases move
            rw [List.append_assoc, ← List.replicate_succ']
            exact .relaying asks audits
      | go =>
          cases move
          exact .relayed asks audits (.inl rfl)
      | cancel =>
          cases move
          exact .relayed asks audits (.inr rfl)
      | _ => cases move
  | refused | unidentified | dropped _ | responded _ _ | unrecorded _ _ | abandoned _ _
  | relayed _ _ _ =>
      cases choice with
      | _ => cases move

/-- Every request of a gateway follows its course. -/
theorem course {ι : Type} [DecidableEq ι] {requests : ι → Request} {engine : PrivacyEngine R}
    {file : List UInt8} {meets : Gateway ι R → ι → Choice → Prop} {gateway : Gateway ι R}
    (h : Tasks.Run (state.turns requests) meets (Gateway.new engine file) gateway) (i : ι) :
    Course state (requests i) (gateway.locals i) (events i gateway.log) :=
  h.local_invariant (P := fun i => Course state (requests i)) (fun _ => .arrived)
    (fun _ _ _ _ _ _ _ _ hown move => hown.turn move) i

/-! ## What a turn touches -/

/-- What a turn reads and writes of what requests share, by the event it shows. -/
inductive Touches {R : Type} [RandomSource R] (state : GatewayState) (request : Request)
    (shared : Shared R) : Observation → Shared R → Prop where
  | refused {response} : Touches state request shared (.refused response) shared
  | admitted (ok : state.precheck request.headers shared.auditHealthy = .ok ()) :
      Touches state request shared .admitted shared
  | numbered {requestSequence} : Touches state request shared (.numbered requestSequence)
      { shared with requestSequence }
  | protection {outcome nowMs engine}
      (call : shared.engine.protect state.unicode state.serde request.body state.scope nowMs
        = (.ok outcome, engine)) :
      Touches state request shared (.protection (.ok outcome)) { shared with engine }
  | rejected {e engine} : Touches state request shared (.protection (.error e)) { shared with engine }
  | panicked {engine} : Touches state request shared .panicked { shared with engine }
  | audited {event fate appended} (written : AuditSink.write state.toVec event fate = (.ok (), appended)) :
      Touches state request shared (.audited event)
        { shared with audit := ⟨shared.audit.file ++ appended⟩ }
  | unaudited {call appended} : Touches state request shared (.unaudited call appended)
      { shared with audit := ⟨shared.audit.file ++ appended⟩ }
  | degraded : Touches state request shared .degraded { shared with auditHealthy := false }
  | recorded {dashboardActivity} : Touches state request shared .recorded
      { shared with dashboardActivity }
  | restored {engine} : Touches state request shared .restored { shared with engine }
  | passed {o} (plain : o = .cancelled ∨ o = .closed ∨ (∃ upstream, o = .sent upstream) ∨
      ∃ reached, o = .answered reached) : Touches state request shared o shared

theorem touches {R : Type} [RandomSource R] {state : GatewayState} {request : Request}
    {choice : Choice} {handler handler' : Handler} {shared shared' : Shared R} {o : Observation}
    (move : state.responses request choice handler shared = some (o, handler', shared')) :
    Touches state request shared o shared' := by
  unfold GatewayState.responses at move
  split at move
  · split at move
    · cases move; exact .refused
    · cases move; exact .admitted ‹_›
  · split at move
    · cases move; exact .refused
    · cases move; exact .numbered
  · split at move
    · cases move; exact .panicked
    · cases move; exact .rejected
    · cases move; exact .protection ‹_›
  · split at move
    · cases move
      simpa using @Touches.unaudited _ _ state request shared _ []
    · split at move
      · cases move; exact .unaudited
      · cases move; exact .audited ‹_›
  · cases move; exact .degraded
  · cases move; exact .recorded
  · cases move; exact .passed (.inr (.inr (.inl ⟨_, rfl⟩)))
  · cases move; exact .passed (.inr (.inr (.inr ⟨_, rfl⟩)))
  · split at move
    · cases move
    · cases move; exact .restored
  · cases move; exact .passed (.inr (.inl rfl))
  · cases move; exact .passed (.inl rfl)
  · cases move; exact .passed (.inl rfl)
  · cases move; exact .passed (.inl rfl)
  · cases move

end AgentVeil
