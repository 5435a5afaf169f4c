import AgentVeil.Gateway.Lemmas.Course

/-!
# What a course sends and writes

A course sends nothing, or it sends once, after the call of `write_audit` for the pending row.
-/

namespace AgentVeil

open Rust

/-- Nothing is sent. -/
def Unsent (os : List Observation) : Prop := ∀ upstream, .sent upstream ∉ os

/-- The event ends a request before it is sent. -/
def Observation.stops : Observation → Bool
  | .refused _ | .panicked => true
  | .protection (.ok (.forward _)) => false
  | .protection _ => true
  | .unaudited call _ => call.upstreamOutcome = .notStarted || call.upstreamOutcome = .pending
  | _ => false

section

variable {state : GatewayState} {request : Request}

theorem precheck_ok_iff {headers : HeaderMap} {auditHealthy : Bool} :
    state.precheck headers auditHealthy = .ok () ↔
      state.authorized headers = true ∧ auditHealthy = true ∧ contentTypeIsJson headers = true ∧
        hasUnsupportedContentEncoding headers = false ∧
        (state.upstream.isOpenai = true → hasSingleAuthorization headers = true) := by
  unfold GatewayState.precheck
  cases state.authorized headers with
  | false => simp
  | true =>
      cases auditHealthy with
      | false => simp
      | true =>
          cases contentTypeIsJson headers with
          | false => simp
          | true =>
              cases hasUnsupportedContentEncoding headers with
              | true => simp
              | false => simp

/-- A forwarded request with an upstream, and the call for its pending row. -/
structure Forwards (state : GatewayState) (request : Request) (call : AuditCall)
    (upstream : UpstreamRequest) (forward : ForwardRequest) : Prop where
  admissible : Admissible state request
  target : upstreamUrl state.urls state.upstream request.headers .responses none = .ok upstream.target
  headers : upstream.headers = forwardRequestHeaders request.headers state.upstream true
  body : upstream.body = forward.body
  pending : call.upstreamOutcome = .pending
  decision : call.decision = auditDecision forward.decision
  summary : call.summary = some forward.summary

/-- The call after `protect` is for a row that nothing follows, or for a pending row. -/
theorem judge_cases (admissible : Admissible state request) (eventId : Str) (n : UInt64)
    (scanLatencyMs : Nat) (outcome : Except EngineError ProtectionOutcome) :
    (∃ call response,
      state.judge request.headers eventId n scanLatencyMs outcome = (call, .respond response) ∧
        call.upstreamOutcome = .notStarted) ∨
    ∃ call upstream forward,
      state.judge request.headers eventId n scanLatencyMs outcome = (call, .send upstream) ∧
        outcome = .ok (.forward forward) ∧ Forwards state request call upstream forward := by
  cases outcome with
  | error error => exact .inl ⟨_, _, rfl, rfl⟩
  | ok outcome =>
      cases outcome with
      | blocked summary => exact .inl ⟨_, _, rfl, rfl⟩
      | forward forward =>
          cases htarget : upstreamUrl state.urls state.upstream request.headers .responses none with
          | error e =>
              simp only [GatewayState.judge, htarget]
              exact .inl ⟨_, _, rfl, rfl⟩
          | ok target =>
              simp only [GatewayState.judge, htarget]
              exact .inr ⟨_, _, forward, rfl, rfl, admissible, htarget, rfl, rfl, rfl, rfl, rfl⟩

/-- The call before a send. -/
theorem Asks.send {os : List Observation} {call : AuditCall} {upstream : UpstreamRequest}
    (h : Asks state request os call (.send upstream)) :
    ∃ n forward, os = opening n (.ok (.forward forward)) ∧
      Forwards state request call upstream forward := by
  generalize hnext : Next.send upstream = next at h
  cases h with
  | @judged eventId n latency outcome admissible =>
      rcases judge_cases admissible eventId n latency outcome with
        ⟨_, _, hj, _⟩ | ⟨_, _, forward, hj, rfl, hforwards⟩
      · rw [hj] at hnext
        cases hnext
      · rw [hj] at hnext ⊢
        cases hnext
        exact ⟨n, forward, rfl, hforwards⟩
  | @answered _ _ _ _ reached _ _ =>
      cases reached with
      | true => cases hnext
      | false => cases hnext

/-- Every other call is the first one, for a row that nothing follows, or it is the second one. -/
theorem Asks.cases_next {os : List Observation} {call : AuditCall} {next : Next}
    (h : Asks state request os call next) :
    (∃ n outcome, os = opening n outcome ∧
      (call.upstreamOutcome = .notStarted ∨ call.upstreamOutcome = .pending)) ∨
    ∃ os' pending upstream ws reached, Asks state request os' pending (.send upstream) ∧
      Audits state pending true ws ∧ os = os' ++ ws ++ [.sent upstream, .answered reached] ∧
      call = { pending with
        upstreamOutcome := if reached = true then .started else .failed } := by
  cases h with
  | @judged eventId n latency outcome admissible =>
      rcases judge_cases admissible eventId n latency outcome with
        ⟨_, _, hj, hcall⟩ | ⟨_, _, _, hj, _, hforwards⟩
      · exact .inl ⟨n, outcome, rfl, .inl (by rw [hj]; exact hcall)⟩
      · exact .inl ⟨n, outcome, rfl, .inr (by rw [hj]; exact hforwards.pending)⟩
  | @answered os' pending upstream ws reached asks audits =>
      refine .inr ⟨os', pending, upstream, ws, reached, asks, audits, rfl, ?_⟩
      cases reached with
      | true => rfl
      | false => rfl

/-! ## Outlines -/

theorem Unsent.append {os os' : List Observation} (h : Unsent os) (h' : Unsent os') :
    Unsent (os ++ os') := by
  intro upstream hmem
  rcases List.mem_append.mp hmem with hmem | hmem
  · exact h upstream hmem
  · exact h' upstream hmem

theorem opening_unsent (n : UInt64) (outcome : Except EngineError ProtectionOutcome) :
    Unsent (opening n outcome) := by
  simp [Unsent, opening]

/-- The events of one request: nothing is sent and at most one row is written, or one request is sent
after its pending row, and a last row may follow. -/
inductive Outline (state : GatewayState) (request : Request) (os : List Observation) : Prop where
  | quiet (unsent : Unsent os) (written : rows os = [] ∨ ∃ event, rows os = [event] ∧
      (event.upstreamOutcome = .notStarted ∨ event.upstreamOutcome = .pending))
  | sends {n forward upstream call event unixMs rest}
      (forwards : Forwards state request call upstream forward)
      (valid : state.auditEvent call unixMs = .ok event)
      (shape : os = opening n (.ok (.forward forward)) ++ [.audited event, .recorded]
        ++ .sent upstream :: rest)
      (unsent : Unsent rest) (calm : ∀ o ∈ rest, o.stops = false)
      (written : rows rest = [] ∨ ∃ later unixMs reached, rows rest = [later] ∧
        state.auditEvent { call with
          upstreamOutcome := if reached = true then .started else .failed } unixMs = .ok later)

/-- What is sent after the pending row. -/
theorem Asks.outline_send {os ws rest : List Observation} {call : AuditCall}
    {upstream : UpstreamRequest} (asks : Asks state request os call (.send upstream))
    (audits : Audits state call true ws) (unsent : Unsent rest) (calm : ∀ o ∈ rest, o.stops = false)
    (written : rows rest = [] ∨ ∃ later unixMs reached, rows rest = [later] ∧
      state.auditEvent { call with
        upstreamOutcome := if reached = true then .started else .failed } unixMs = .ok later) :
    Outline state request (os ++ ws ++ .sent upstream :: rest) := by
  obtain ⟨n, forward, rfl, hforwards⟩ := asks.send
  cases audits with
  | written valid => exact .sends hforwards valid rfl unsent calm written

/-- What follows a call of `write_audit`, or a part of it. -/
theorem Asks.outline {os ts : List Observation} {call : AuditCall} {next : Next}
    (asks : Asks state request os call next) (unsent : Unsent ts)
    (calm : ∀ o ∈ ts, o.stops = true →
      call.upstreamOutcome = .notStarted ∨ call.upstreamOutcome = .pending)
    (written : rows ts = [] ∨ ∃ event unixMs, rows ts = [event] ∧
      state.auditEvent call unixMs = .ok event) : Outline state request (os ++ ts) := by
  rcases asks.cases_next with ⟨n, outcome, rfl, hcall⟩ |
    ⟨os', pending, upstream, ws, reached, earlier, audits, rfl, hcall⟩
  · refine .quiet ((opening_unsent n outcome).append unsent) ?_
    have hrows : rows (opening n outcome ++ ts) = rows ts := rfl
    rw [hrows]
    refine written.imp id fun ⟨event, unixMs, hevent, hvalid⟩ => ⟨event, hevent, ?_⟩
    rw [(auditEvent_ok hvalid).2.2.2.2]
    exact hcall
  · rw [List.append_assoc, List.cons_append, List.cons_append, List.nil_append]
    refine earlier.outline_send audits ?_ ?_ ?_
    · simpa [Unsent] using unsent
    · intro o ho
      rcases List.mem_cons.mp ho with rfl | ho
      · rfl
      · cases hstops : o.stops with
        | false => rfl
        | true =>
            rcases calm o ho hstops with h | h
            · rw [hcall] at h
              cases reached with
              | true => cases h
              | false => cases h
            · rw [hcall] at h
              cases reached with
              | true => cases h
              | false => cases h
    · have hrows : rows (.answered reached :: ts) = rows ts := rfl
      rw [hrows]
      exact written.imp id fun ⟨event, unixMs, hevent, hvalid⟩ =>
        ⟨event, unixMs, reached, hevent, hcall ▸ hvalid⟩

/-- What follows a whole call of `write_audit`. -/
theorem Asks.outline_audits {os ws tail : List Observation} {call : AuditCall} {next : Next}
    {written : Bool} (asks : Asks state request os call next) (audits : Audits state call written ws)
    (plain : ∀ o ∈ tail, o = .restored ∨ o = .closed ∨ o = .cancelled) :
    Outline state request (os ++ ws ++ tail) := by
  have hunsent : Unsent tail := by
    intro upstream hmem
    rcases plain _ hmem with h | h | h
    · cases h
    · cases h
    · cases h
  have hrows : rows tail = [] := by
    refine List.filterMap_eq_nil_iff.mpr fun o ho => ?_
    rcases plain o ho with rfl | rfl | rfl
    · rfl
    · rfl
    · rfl
  have hcalm : ∀ o ∈ tail, o.stops = false := by
    intro o ho
    rcases plain o ho with rfl | rfl | rfl
    · rfl
    · rfl
    · rfl
  rw [List.append_assoc]
  cases audits with
  | @written event unixMs valid =>
      refine asks.outline ?_ ?_ (.inr ⟨event, unixMs, ?_, valid⟩)
      · simpa [Unsent] using hunsent
      · intro o ho hstops
        simp only [List.cons_append, List.nil_append, List.mem_cons] at ho
        rcases ho with rfl | rfl | ho
        · cases hstops
        · cases hstops
        · rw [hcalm o ho] at hstops; cases hstops
      · rw [rows_append, hrows]
        rfl
  | @failed appended =>
      refine asks.outline ?_ ?_ (.inl ?_)
      · simpa [Unsent] using hunsent
      · intro o ho hstops
        simp only [List.cons_append, List.nil_append, List.mem_cons] at ho
        rcases ho with rfl | rfl | ho
        · simpa [Observation.stops] using hstops
        · cases hstops
        · rw [hcalm o ho] at hstops; cases hstops
      · rw [rows_append, hrows]
        rfl

theorem Course.outline {handler : Handler} {os : List Observation}
    (h : Course state request handler os) : Outline state request os := by
  cases h with
  | arrived => exact .quiet (by simp [Unsent]) (.inl rfl)
  | refused => exact .quiet (by simp [Unsent]) (.inl rfl)
  | admitted => exact .quiet (by simp [Unsent]) (.inl rfl)
  | unidentified => exact .quiet (by simp [Unsent]) (.inl rfl)
  | numbered => exact .quiet (by simp [Unsent]) (.inl rfl)
  | dropped ends =>
      rcases ends with rfl | rfl
      · exact .quiet (by simp [Unsent]) (.inl rfl)
      · exact .quiet (by simp [Unsent]) (.inl rfl)
  | auditing asks =>
      have houtline : Outline state request (os ++ []) :=
        asks.outline (by simp [Unsent]) (by simp) (.inl rfl)
      rwa [List.append_nil] at houtline
  | degraded asks =>
      exact asks.outline (by simp [Unsent]) (by simp [Observation.stops]) (.inl rfl)
  | recording asks valid =>
      exact asks.outline (by simp [Unsent]) (by simp [Observation.stops]) (.inr ⟨_, _, rfl, valid⟩)
  | responded asks audits | unrecorded asks audits | sending asks audits =>
      have houtline : Outline state request (_ ++ []) := asks.outline_audits audits (by simp)
      rwa [List.append_nil] at houtline
  | waiting asks audits =>
      exact asks.outline_send audits (by simp [Unsent]) (by simp) (.inl rfl)
  | abandoned asks audits =>
      exact asks.outline_send audits (by simp [Unsent]) (by simp [Observation.stops]) (.inl rfl)
  | relaying asks audits =>
      refine asks.outline_audits audits fun o ho => .inl (List.eq_of_mem_replicate ho)
  | relayed asks audits ends =>
      rw [List.append_assoc (_ ++ _)]
      refine asks.outline_audits audits fun o ho => ?_
      rcases List.mem_append.mp ho with ho | ho
      · exact .inl (List.eq_of_mem_replicate ho)
      · rw [List.mem_singleton.mp ho]
        exact .inr ends

end

end AgentVeil
