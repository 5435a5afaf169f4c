import AgentVeil.Engine.Theorems
import AgentVeil.Gateway.Lemmas.Egress

/-!
# Theorems about the gateway
-/

namespace AgentVeil

open Rust
open PrivacyEngine (demoEngine mailSerde)

variable {ι R : Type} [DecidableEq ι] [RandomSource R] {state : GatewayState}
  {requests : ι → Request} {engine : PrivacyEngine R} {file : List UInt8}
  {meets : Gateway ι R → ι → Choice → Prop} {gateway : Gateway ι R}

/-! ## A demonstration -/

/-- A gateway with a synthetic upstream. -/
def demoGateway : GatewayState where
  unicode := Unicode.ascii
  serde := mailSerde
  toVec event := some (bytes event.eventId)
  urls := ⟨some, fun base path => some (base ++ path), fun url _ => url⟩
  scope := demoScope
  expectedLocalToken := List.replicate 32 'k'
  upstream := .loopbackTest "http://127.0.0.1:9000".toList
  restorationMode := .disabled
  sessionPseudonym := "av_session_a9434ed22cdb8a5e".toList
  policyName := "demo".toList
  policyHash := "a99c5b9eeb31a295fb454913a1713b5f68500d325d4f9180e8b9fbb7fa6e5db1".toList

def demoHeaders : HeaderMap :=
  [(localSessionHeader.toList, List.replicate 32 0x6B),
    ("content-type".toList, bytes "application/json".toList)]

/-- The first request is no JSON, every other one holds an address. -/
def demoRequests (i : Nat) : Request :=
  ⟨demoHeaders, if i = 0 then [] else demoBody "a@b.co".toList⟩

def demoStart : Gateway Nat CounterRandom := .new demoEngine []

/-- The turns of request 1 up to its send. -/
def demoSchedule : List (Nat × Choice) :=
  [(1, .go), (1, .identify (some fun _ => 0)), (1, .protect 0 0), (1, .write 0 .durable), (1, .go),
    (1, .go)]

/-- The row of request 0 is not written, after request 1 has been admitted. -/
def lateSchedule : List (Nat × Choice) :=
  [(0, .go), (1, .go), (0, .identify (some fun _ => 0)), (0, .protect 0 0), (0, .write 0 .sync),
    (0, .go)] ++ demoSchedule.tail

def Observation.isSent : Observation → Bool
  | .sent _ => true
  | _ => false

/-! ## Audit before egress -/

/-- What the events of a request stand for, in the states they were shown in. -/
structure Grounded (state : GatewayState) (requests : ι → Request) (engine : PrivacyEngine R)
    (file : List UInt8) (log : List (ι × Observation)) (i : ι) : Prop where
  /-- The health flag held. -/
  admitted : ∀ pre post, log = pre ++ (i, .admitted) :: post →
    ∃ earlier : Gateway ι R, earlier.log = pre ∧ earlier.shared.auditHealthy = true ∧
      Tasks.Reachable (state.turns requests) (Gateway.new engine file) earlier
  /-- The engine returned the outcome for the body of the request. -/
  protection : ∀ pre outcome post, log = pre ++ (i, .protection (.ok outcome)) :: post →
    ∃ (earlier : Gateway ι R) (nowMs : Nat), earlier.log = pre ∧
      (earlier.shared.engine.protect state.unicode state.serde (requests i).body state.scope nowMs).1
        = .ok outcome ∧ Tasks.Reachable (state.turns requests) (Gateway.new engine file) earlier
  /-- The row was written and synced. -/
  audited : ∀ pre event post, log = pre ++ (i, .audited event) :: post →
    ∃ fate, (AuditSink.write state.toVec event fate).1 = .ok ()

theorem grounded (h : Tasks.Reachable (state.turns requests) (Gateway.new engine file) gateway)
    (i : ι) : Grounded state requests engine file gateway.log i where
  admitted pre post hlog := by
    obtain ⟨earlier, _, _, _, hrun, _, hpre, hturn⟩ := h.moment rfl hlog
    refine ⟨earlier, hpre, ?_, hrun⟩
    cases touches hturn with
    | admitted ok => exact (precheck_ok_iff.mp ok).2.1
    | passed plain => simp at plain
  protection pre outcome post hlog := by
    obtain ⟨earlier, _, _, _, hrun, _, hpre, hturn⟩ := h.moment rfl hlog
    cases touches hturn with
    | @protection _ nowMs _ call => exact ⟨earlier, nowMs, hpre, by rw [call], hrun⟩
    | passed plain => simp at plain
  audited pre event post hlog := by
    obtain ⟨earlier, _, _, _, _, _, _, hturn⟩ := h.moment rfl hlog
    cases touches hturn with
    | @audited _ fate _ written => exact ⟨fate, by rw [written]⟩
    | passed plain => simp at plain

/-- Only a write that is synced is acknowledged. -/
theorem durable_of_ok {toVec : AuditEvent → Option (List UInt8)} {event : AuditEvent} {fate : WriteFate}
    (h : (AuditSink.write toVec event fate).1 = .ok ()) : fate = .durable := by
  unfold AuditSink.write at h
  cases hline : event.toJsonLine toVec with
  | error e => rw [hline] at h; cases h
  | ok line =>
      rw [hline] at h
      cases fate with
      | durable => rfl
      | _ => cases h

/-- A run that a schedule leads to. -/
theorem exists_of_exec (schedule : List (Nat × Choice)) {P : Gateway Nat CounterRandom → Bool}
    (h : (Tasks.exec (demoGateway.turns demoRequests) demoStart schedule).any P = true) :
    ∃ gateway, Tasks.Reachable (demoGateway.turns demoRequests) demoStart gateway ∧ P gateway = true := by
  obtain ⟨gateway, hexec, hlog⟩ := (Option.any_eq_true _ _).mp h
  exact ⟨gateway, Tasks.run_of_exec .start (fun _ _ _ => trivial) hexec, hlog⟩

/-- A run of six turns in which request 1 is sent and shown. -/
theorem exists_demoSchedule : ∃ gateway,
    Tasks.Reachable (demoGateway.turns demoRequests) demoStart gateway ∧
      (events 1 gateway.log).any Observation.isSent = true ∧ gateway.log.length = 6 ∧
      gateway.shared.dashboardActivity.length = 1 := by
  obtain ⟨gateway, hreach, h⟩ := exists_of_exec demoSchedule
    (P := fun gateway => (events 1 gateway.log).any Observation.isSent && gateway.log.length == 6 &&
      gateway.shared.dashboardActivity.length == 1) (by decide +kernel)
  simp only [Bool.and_eq_true, beq_iff_eq] at h
  exact ⟨gateway, hreach, h.1.1, h.1.2, h.2⟩

theorem any_of_events {i : Nat} {log : List (Nat × Observation)} {p : Observation → Bool}
    (h : (events i log).any p = true) : log.any (fun e => p e.2) = true := by
  obtain ⟨o, ho, hp⟩ := List.any_eq_true.mp h
  exact List.any_eq_true.mpr ⟨(i, o), mem_events.mp ho, hp⟩

/-- A run in which request 1 is sent. -/
theorem exists_sent : ∃ gateway,
    Tasks.Reachable (demoGateway.turns demoRequests) demoStart gateway ∧
      gateway.log.any (·.2.isSent) = true := by
  obtain ⟨gateway, hreach, hsent, _⟩ := exists_demoSchedule
  exact ⟨gateway, hreach, any_of_events hsent⟩

/-- The pending row is acknowledged, and the send has still to come. -/
def Handler.sends : Handler → Bool
  | .recording _ _ (.send _) | .sending _ _ => true
  | _ => false

/-- The turn writes a pending row, and the sink acknowledges it. -/
def GatewayState.acknowledges (state : GatewayState) : Handler → Choice → Prop
  | .auditing call (.send _), .write unixMs fate =>
      ∃ event, state.auditEvent call unixMs = .ok event ∧
        (AuditSink.write state.toVec event fate).1 = .ok ()
  | _, _ => False

/-- What keeps a turn from leading to a send after the flag is cleared. -/
structure GatewayState.Guarded (state : GatewayState) (gateway : Gateway ι R) (i : ι)
    (choice : Choice) : Prop where
  /-- A pending row is acknowledged only while the flag holds. -/
  pending : state.acknowledges (gateway.locals i) choice → gateway.shared.auditHealthy = true
  /-- The flag is not cleared between the acknowledged pending row of a request and its send. -/
  clear : (∃ call next, gateway.locals i = .degraded call next) →
    ∀ j, (gateway.locals j).sends = false

/-- Nothing is sent any more: the flag is cleared, and no request has an acknowledged pending row. -/
structure Sealed (gateway : Gateway ι R) : Prop where
  flag : gateway.shared.auditHealthy = false
  locals : ∀ j, (gateway.locals j).sends = false

/-- A turn of a handler that is not about to send, if it acknowledges no pending row. -/
theorem unacknowledged_turn {request : Request} {choice : Choice} {handler handler' : Handler}
    {shared shared' : Shared R} {o : Observation} (hsends : handler.sends = false)
    (hnot : ¬ state.acknowledges handler choice)
    (move : state.responses request choice handler shared = some (o, handler', shared')) :
    handler'.sends = false ∧ ∀ upstream, o ≠ .sent upstream := by
  unfold GatewayState.responses at move
  split at move
  · split at move
    · cases move
      exact ⟨rfl, nofun⟩
    · cases move
      exact ⟨rfl, nofun⟩
  · split at move
    · cases move
      exact ⟨rfl, nofun⟩
    · cases move
      exact ⟨rfl, nofun⟩
  · -- a request in flight is still scanned
    split at move
    · cases move
      exact ⟨rfl, nofun⟩
    · cases move
      exact ⟨rfl, nofun⟩
    · cases move
      exact ⟨rfl, nofun⟩
  · rename_i call next unixMs fate
    split at move
    · cases move
      exact ⟨rfl, nofun⟩
    · rename_i event hevent
      split at move
      · cases move
        exact ⟨rfl, nofun⟩
      · rename_i hwrite
        cases move
        refine ⟨?_, nofun⟩
        cases next with
        | send upstream => exact absurd ⟨event, hevent, by rw [hwrite]⟩ hnot
        | _ => rfl
  · rename_i call next
    cases move
    refine ⟨?_, nofun⟩
    cases next with
    | _ => rfl
  · rename_i call event next
    cases move
    refine ⟨?_, nofun⟩
    cases next with
    | send upstream => cases hsends
    | _ => rfl
  · cases hsends
  · cases move
    exact ⟨rfl, nofun⟩
  · split at move
    · cases move
    · cases move
      exact ⟨rfl, nofun⟩
  · cases move
    exact ⟨rfl, nofun⟩
  · cases move
    exact ⟨rfl, nofun⟩
  · cases move
    exact ⟨rfl, nofun⟩
  · cases move
    exact ⟨rfl, nofun⟩
  · cases move

/-- The flag stays cleared. -/
theorem unhealthy_turn {request : Request} {choice : Choice} {handler handler' : Handler}
    {shared shared' : Shared R} {o : Observation} (hflag : shared.auditHealthy = false)
    (move : state.responses request choice handler shared = some (o, handler', shared')) :
    shared'.auditHealthy = false := by
  cases touches move with
  | degraded => rfl
  | _ => exact hflag

/-- The turn that clears the flag. -/
theorem degraded_turn {request : Request} {choice : Choice} {handler handler' : Handler}
    {shared shared' : Shared R}
    (move : state.responses request choice handler shared = some (.degraded, handler', shared')) :
    shared'.auditHealthy = false ∧ handler'.sends = false ∧
      ∃ call next, handler = .degraded call next := by
  have hflag : shared'.auditHealthy = false := by
    cases touches move with
    | degraded => rfl
    | passed plain => simp at plain
  have hhandler : ∃ call next, handler = .degraded call next := by
    unfold GatewayState.responses at move
    split at move
    case h_5 call next => exact ⟨call, next, rfl⟩
    all_goals first | cases move | (split at move <;> first | cases move | (split at move <;> cases move))
  obtain ⟨call, next, rfl⟩ := hhandler
  refine ⟨hflag, ?_, call, next, rfl⟩
  cases choice with
  | go =>
      cases move
      cases next with
      | _ => rfl
  | _ => cases move

/-- The flag is false exactly from the event that clears it. -/
theorem unhealthy_iff (h : Tasks.Run (state.turns requests) meets (Gateway.new engine file) gateway) :
    gateway.shared.auditHealthy = false ↔ ∃ i, (i, .degraded) ∈ gateway.log := by
  refine h.shared_invariant (I := fun shared log =>
    shared.auditHealthy = false ↔ ∃ i, (i, .degraded) ∈ log) (by simp [Gateway.new, Tasks.start])
    fun k c l shared log o l' shared' hinv move => ?_
  by_cases ho : o = .degraded
  · subst ho
    simp [(degraded_turn move).1]
  · have hsame : shared'.auditHealthy = shared.auditHealthy := by
      cases touches move with
      | degraded => exact absurd rfl ho
      | _ => rfl
    simp only [hsame, hinv, List.mem_append, List.mem_singleton, Prod.mk.injEq, Ne.symm ho, and_false,
      or_false]

omit [DecidableEq ι] in
/-- The parts of a log that end in one more event. -/
theorem append_concat_cases {log pre post : List (ι × Observation)} {a b : ι × Observation}
    (h : log ++ [a] = pre ++ b :: post) :
    (post = [] ∧ b = a ∧ pre = log) ∨ ∃ post', post = post' ++ [a] ∧ log = pre ++ b :: post' := by
  rcases List.eq_nil_or_concat post with rfl | ⟨post', last, rfl⟩
  · obtain ⟨rfl, hlast⟩ := List.append_inj' h rfl
    exact .inl ⟨rfl, (List.cons.inj hlast).1.symm, rfl⟩
  · rw [List.concat_eq_append, ← List.cons_append, ← List.append_assoc] at h
    obtain ⟨rfl, hlast⟩ := List.append_inj' h rfl
    exact .inr ⟨post', by rw [List.concat_eq_append, (List.cons.inj hlast).1], rfl⟩

/-- What no handler does before a turn, and the next handler of the turn does not, none does after it. -/
theorem forall_update {locals : ι → Handler} {i : ι} {handler : Handler}
    (h : handler.sends = false) (hall : ∀ j, (locals j).sends = false) :
    ∀ j, (Function.update locals i handler j).sends = false := by
  intro j
  by_cases hij : j = i
  · subst hij
    simpa using h
  · simpa [Function.update_of_ne hij] using hall j

/-- If no pending row is acknowledged while the flag is false, and the flag is not cleared between an
acknowledged pending row and its send, no request sends after the flag is cleared. -/
theorem no_egress_after_clear
    (h : Tasks.Run (state.turns requests) state.Guarded (Gateway.new engine file) gateway)
    {pre post : List (ι × Observation)} {i : ι} (hlog : gateway.log = pre ++ (i, .degraded) :: post) :
    ∀ j upstream, (j, .sent upstream) ∉ post := by
  have hinv := h.invariant (I := fun gateway =>
    ((∃ i, (i, .degraded) ∈ gateway.log) → Sealed gateway) ∧
      ∀ pre i post, gateway.log = pre ++ (i, .degraded) :: post →
        ∀ j upstream, (j, .sent upstream) ∉ post) ⟨by simp [Gateway.new, Tasks.start], by
    simp [Gateway.new, Tasks.start]⟩ ?_
  · exact hinv.2 pre i post hlog
  intro t t' i c hinv hmeets hturn
  obtain ⟨hsealed, hsends⟩ := hinv
  obtain ⟨o, l, s, hmove, rfl⟩ := Tasks.turn_eq_some.mp hturn
  -- after the turn nothing is sent if the flag was cleared in it or before
  have hnext : (o = .degraded ∨ ∃ i, (i, .degraded) ∈ t.log) →
      Sealed (⟨s, Function.update t.locals i l, t.log ++ [(i, o)]⟩ : Gateway ι R) ∧
        ∀ upstream, o ≠ .sent upstream := by
    rintro (rfl | hmark)
    · obtain ⟨hflag, hl, hhandler⟩ := degraded_turn hmove
      exact ⟨⟨hflag, forall_update hl (hmeets.clear hhandler)⟩, nofun⟩
    · obtain ⟨hflag, hall⟩ := hsealed hmark
      have hnot : ¬ state.acknowledges (t.locals i) c := fun h => by
        rw [hmeets.pending h] at hflag
        cases hflag
      obtain ⟨hl, hsent⟩ := unacknowledged_turn (hall i) hnot hmove
      exact ⟨⟨unhealthy_turn hflag hmove, forall_update hl hall⟩, hsent⟩
  refine ⟨?_, fun pre k post hsplit j upstream hmem => ?_⟩
  · rintro ⟨k, hk⟩
    rcases List.mem_append.mp hk with hk | hk
    · exact (hnext (.inr ⟨k, hk⟩)).1
    · obtain ⟨_, rfl⟩ := Prod.mk.inj (List.mem_singleton.mp hk)
      exact (hnext (.inl rfl)).1
  · rcases append_concat_cases hsplit with ⟨rfl, _, _⟩ | ⟨post', rfl, hlog⟩
    · cases hmem
    · rcases List.mem_append.mp hmem with hmem | hmem
      · exact hsends pre k post' hlog j upstream hmem
      · obtain ⟨_, hsent⟩ := Prod.mk.inj (List.mem_singleton.mp hmem)
        exact (hnext (.inr ⟨k, by rw [hlog]; simp⟩)).2 upstream hsent.symm

/-- A request with an acknowledged pending row sends in its next turns. -/
theorem sends_next {j : ι} (hsends : (gateway.locals j).sends = true) :
    ∃ later more, Tasks.Reachable (state.turns requests) gateway later ∧
      later.log = gateway.log ++ more ∧ ∃ upstream, (j, .sent upstream) ∈ more := by
  -- the send itself
  have hsend : ∀ {t : Gateway ι R} {call upstream}, t.locals j = .sending call upstream →
      ∃ later, t.turn (state.turns requests) j .go = some later ∧
        later.log = t.log ++ [(j, .sent upstream)] := by
    intro t call upstream hj
    refine ⟨_, Tasks.turn_eq_some.mpr ⟨.sent upstream, .waiting call, t.shared, ?_, rfl⟩, rfl⟩
    rw [hj]
    rfl
  generalize hj : gateway.locals j = handler at hsends
  cases handler with
  | sending call upstream =>
      obtain ⟨later, hturn, hlog⟩ := hsend hj
      exact ⟨later, _, .turn .start trivial hturn, hlog, upstream, by simp⟩
  | recording call event next =>
      cases next with
      | send upstream =>
          obtain ⟨recorded, hturn, hown, hlog⟩ : ∃ recorded : Gateway ι R,
              gateway.turn (state.turns requests) j .go = some recorded ∧
                recorded.locals j = .sending call upstream ∧
                recorded.log = gateway.log ++ [(j, .recorded)] := by
            refine ⟨_, Tasks.turn_eq_some.mpr ⟨.recorded, .sending call upstream,
              { gateway.shared with
                dashboardActivity :=
                  recordDashboardActivity gateway.shared.dashboardActivity event }, ?_, rfl⟩,
              by simp, rfl⟩
            rw [hj]
            rfl
          obtain ⟨later, hsent, hlater⟩ := hsend hown
          refine ⟨later, [(j, .recorded), (j, .sent upstream)],
            .turn (.turn .start trivial hturn) trivial hsent, ?_, upstream, by simp⟩
          rw [hlater, hlog, List.append_assoc]
          rfl
      | _ => cases hsends
  | _ => cases hsends

/-- No weaker condition on the turns would do: one that is not met can be followed by a send after the
flag is cleared. -/
theorem egress_of_unguarded
    (h : Tasks.Reachable (state.turns requests) (Gateway.new engine file) gateway) {i : ι}
    {choice : Choice} {gateway' : Gateway ι R}
    (move : gateway.turn (state.turns requests) i choice = some gateway')
    (unguarded : ¬ state.Guarded gateway i choice) :
    ∃ later, Tasks.Reachable (state.turns requests) gateway' later ∧
      ∃ pre k post j upstream, later.log = pre ++ (k, .degraded) :: post ∧
        (j, .sent upstream) ∈ post := by
  have hafter : ∀ j, (∃ k, (k, .degraded) ∈ gateway'.log) → (gateway'.locals j).sends = true →
      ∃ later, Tasks.Reachable (state.turns requests) gateway' later ∧
        ∃ pre k post j upstream, later.log = pre ++ (k, .degraded) :: post ∧
          (j, .sent upstream) ∈ post := by
    rintro j ⟨k, hk⟩ hsends
    obtain ⟨later, more, hlater, hlog, upstream, hmem⟩ := sends_next hsends
    obtain ⟨pre, post, hsplit⟩ := List.append_of_mem hk
    refine ⟨later, hlater, pre, k, post ++ more, j, upstream, ?_, List.mem_append_right _ hmem⟩
    rw [hlog, hsplit, List.append_assoc, List.cons_append]
  obtain ⟨o, l, s, hmove, rfl⟩ := Tasks.turn_eq_some.mp move
  by_cases hpending : state.acknowledges (gateway.locals i) choice → gateway.shared.auditHealthy = true
  · -- the flag is cleared under a request that is about to send
    have hclear : ¬ ((∃ call next, gateway.locals i = .degraded call next) →
        ∀ j, (gateway.locals j).sends = false) := fun hclear => unguarded ⟨hpending, hclear⟩
    push Not at hclear
    obtain ⟨⟨call, next, hi⟩, j, hj⟩ := hclear
    have hji : j ≠ i := by
      rintro rfl
      rw [hi] at hj
      exact hj rfl
    have ho : o = .degraded := by
      rw [hi] at hmove
      cases choice with
      | go => cases hmove; rfl
      | _ => cases hmove
    refine hafter j ⟨i, by simp [ho]⟩ ?_
    simpa [Function.update_of_ne hji] using hj
  · -- a pending row is acknowledged although the flag is false
    push Not at hpending
    obtain ⟨hack, hflag⟩ := hpending
    obtain ⟨k, hk⟩ := (unhealthy_iff h).mp (by simpa using hflag)
    refine hafter i ⟨k, List.mem_append_left _ hk⟩ ?_
    generalize gateway.locals i = handler at hack hmove
    unfold GatewayState.acknowledges at hack
    split at hack
    · rename_i call upstream unixMs fate
      obtain ⟨event, hevent, hwrite⟩ := hack
      rcases hresult : AuditSink.write state.toVec event fate with ⟨result, appended⟩
      rw [hresult] at hwrite
      obtain rfl : result = .ok () := hwrite
      simp only [GatewayState.turns, GatewayState.responses, hevent, hresult] at hmove
      cases hmove
      simp [Handler.sends]
    · cases hack

/-- Whatever the order of the turns, only a request that was admitted before the flag was cleared can
send after it. -/
theorem admitted_before_clear
    (h : Tasks.Reachable (state.turns requests) (Gateway.new engine file) gateway)
    {pre post : List (ι × Observation)} {i j : ι} {upstream : UpstreamRequest}
    (hlog : gateway.log = pre ++ (i, .degraded) :: post) (hsent : (j, .sent upstream) ∈ post) :
    (j, .admitted) ∈ pre := by
  have hadmitted : (j, .admitted) ∈ gateway.log := by
    have hmem : .sent upstream ∈ events j gateway.log := mem_events.mpr (by rw [hlog]; simp [hsent])
    obtain ⟨before, after, hsplit⟩ := List.append_of_mem hmem
    cases (course h j).outline with
    | quiet unsent _ => exact absurd hmem (unsent upstream)
    | sends _ _ shape _ _ _ => exact mem_events.mp (by rw [shape]; simp [opening])
  rw [hlog] at hadmitted
  rcases List.mem_append.mp hadmitted with hadmitted | hadmitted
  · exact hadmitted
  · have hpost := (List.mem_cons.mp hadmitted).resolve_left (by rintro ⟨⟩)
    obtain ⟨post₁, post₂, rfl⟩ := List.append_of_mem hpost
    obtain ⟨earlier, hpre, hhealthy, hreach⟩ := (grounded h j).admitted
      (pre ++ (i, .degraded) :: post₁) post₂ (by rw [hlog]; simp)
    rw [(unhealthy_iff hreach).mpr ⟨i, by rw [hpre]; simp⟩] at hhealthy
    cases hhealthy

def Observation.isDegraded : Observation → Bool
  | .degraded => true
  | _ => false

/-- Something is sent after the flag is cleared. -/
def sendsAfterClear : List (Nat × Observation) → Bool
  | [] => false
  | e :: log => (e.2.isDegraded && log.any (·.2.isSent)) || sendsAfterClear log

theorem sendsAfterClear_iff {log : List (Nat × Observation)} : sendsAfterClear log = true ↔
    ∃ pre i post j upstream, log = pre ++ (i, .degraded) :: post ∧ (j, .sent upstream) ∈ post := by
  induction log with
  | nil => simp [sendsAfterClear]
  | cons e log ih =>
      simp only [sendsAfterClear, Bool.or_eq_true, Bool.and_eq_true, List.any_eq_true, ih]
      constructor
      · rintro (⟨hdegraded, ⟨j, o⟩, hmem, hsent⟩ | ⟨pre, i, post, j, upstream, rfl, hmem⟩)
        · obtain ⟨i, d⟩ := e
          cases d with
          | degraded =>
              cases o with
              | sent upstream => exact ⟨[], i, log, j, upstream, rfl, hmem⟩
              | _ => cases hsent
          | _ => cases hdegraded
        · exact ⟨e :: pre, i, post, j, upstream, rfl, hmem⟩
      · rintro ⟨pre, i, post, j, upstream, hlog, hmem⟩
        cases pre with
        | nil =>
            obtain ⟨rfl, rfl⟩ := List.cons.inj hlog
            exact .inl ⟨rfl, _, hmem, rfl⟩
        | cons e' pre =>
            obtain ⟨rfl, rfl⟩ := List.cons.inj hlog
            exact .inr ⟨pre, i, post, j, upstream, rfl, hmem⟩

/-- Request 1 is admitted, the row of request 0 is not synced and the flag is cleared, and then the
pending row of request 1 is written and its body is sent. -/
theorem egress_after_clear : ∃ gateway : Gateway Nat CounterRandom,
    Tasks.Reachable (demoGateway.turns demoRequests) demoStart gateway ∧
    ∃ pre i post j upstream, gateway.log = pre ++ (i, .degraded) :: post ∧
      (j, .sent upstream) ∈ post := by
  obtain ⟨gateway, hreach, hsent⟩ := exists_of_exec lateSchedule
    (P := fun gateway => sendsAfterClear gateway.log) (by decide +kernel)
  exact ⟨gateway, hreach, sendsAfterClear_iff.mp hsent⟩

/-- Every run is guarded while the flag holds. -/
theorem guarded_of_healthy
    (h : Tasks.Reachable (state.turns requests) (Gateway.new engine file) gateway)
    (healthy : gateway.shared.auditHealthy = true) :
    Tasks.Run (state.turns requests) state.Guarded (Gateway.new engine file) gateway := by
  induction h with
  | start => exact .start
  | @turn t t' i c hrun _ move ih =>
      obtain ⟨o, l, s, hmove, rfl⟩ := Tasks.turn_eq_some.mp move
      have hbefore : t.shared.auditHealthy = true := by
        by_contra hflag
        obtain ⟨k, hk⟩ := (unhealthy_iff hrun).mp (by simpa using hflag)
        rw [(unhealthy_iff (hrun.turn trivial move)).mpr ⟨k, List.mem_append_left _ hk⟩] at healthy
        cases healthy
      refine .turn (ih hbefore) ⟨fun _ => hbefore, ?_⟩ move
      rintro ⟨call, next, hi⟩
      rw [hi] at hmove
      cases c with
      | go =>
          cases hmove
          cases healthy
      | _ => cases hmove

/-- Every run is guarded on which no write is acknowledged. -/
theorem guarded_of_unacknowledged {gateway' : Gateway ι R}
    (h : Tasks.Run (state.turns requests) state.Guarded (Gateway.new engine file) gateway)
    (hsends : ∀ j, (gateway.locals j).sends = false)
    (h' : Tasks.Run (state.turns requests) (fun _ _ c => ∀ unixMs, c ≠ .write unixMs .durable) gateway
      gateway') :
    Tasks.Run (state.turns requests) state.Guarded (Gateway.new engine file) gateway' ∧
      ∀ j, (gateway'.locals j).sends = false := by
  induction h' with
  | start => exact ⟨h, hsends⟩
  | @turn t t' i c _ hc move ih =>
      obtain ⟨hrun, hall⟩ := ih
      have hnot : ¬ state.acknowledges (t.locals i) c := by
        intro hack
        unfold GatewayState.acknowledges at hack
        split at hack
        · obtain ⟨event, _, hwrite⟩ := hack
          exact hc _ (by rw [durable_of_ok hwrite])
        · cases hack
      obtain ⟨o, l, s, hmove, rfl⟩ := Tasks.turn_eq_some.mp move
      exact ⟨.turn hrun ⟨fun hack => absurd hack hnot, fun _ => hall⟩ move,
        forall_update (unacknowledged_turn (hall i) hnot hmove).1 hall⟩

/-- The turns after the send of request 1: the row of request 0 is not synced while request 2 is in
flight, and neither is the pending row of request 2. -/
def failingSchedule : List (Nat × Choice) :=
  [(0, .go), (2, .go), (0, .identify (some fun _ => 0)), (2, .identify (some fun _ => 0)),
    (0, .protect 0 0), (0, .write 0 .sync), (2, .protect 0 0), (0, .go), (2, .write 0 .sync), (2, .go)]

theorem no_egress_after_clear_demo : ∃ gateway : Gateway Nat CounterRandom,
    ∃ pre post, gateway.log = pre ++ (0, .degraded) :: post ∧
      (pre.any fun e => e.1 = 1 && e.2.isSent) = true ∧ (events 2 pre).length = 3 ∧
      (post.any fun e => e.1 = 2 && e.2.isDegraded) = true ∧
      ∀ j upstream, (j, .sent upstream) ∉ post := by
  have hexec : (Tasks.exec (demoGateway.turns demoRequests) demoStart demoSchedule).any (fun gateway =>
      gateway.shared.auditHealthy && !(gateway.locals 1).sends &&
        (Tasks.exec (demoGateway.turns demoRequests) gateway failingSchedule).any (fun gateway =>
          ((gateway.log.drop 13).head?.any fun e => e.1 = 0 && e.2.isDegraded) &&
            ((gateway.log.take 13).any fun e => e.1 = 1 && e.2.isSent) &&
            (events 2 (gateway.log.take 13)).length == 3 &&
            ((gateway.log.drop 13).tail.any fun e => e.1 = 2 && e.2.isDegraded))) = true := by
    decide +kernel
  obtain ⟨sent, hsent, hexec⟩ := (Option.any_eq_true _ _).mp hexec
  simp only [Bool.and_eq_true, Bool.not_eq_true'] at hexec
  obtain ⟨⟨healthy, hone⟩, hexec⟩ := hexec
  obtain ⟨gateway, hexec, hlog⟩ := (Option.any_eq_true _ _).mp hexec
  simp only [Bool.and_eq_true, beq_iff_eq] at hlog
  obtain ⟨⟨⟨hcleared, hpre⟩, htwo⟩, hpost⟩ := hlog
  -- only request 1 has taken turns before the failure
  have halone : Tasks.Run (demoGateway.turns demoRequests) (fun _ i _ => i = 1) demoStart sent :=
    Tasks.run_of_exec .start (fun _ => by decide) hsent
  have hsends : ∀ j, (sent.locals j).sends = false := by
    intro j
    by_cases hj : j = 1
    · rw [hj, hone]
    · rw [halone.untouched (fun _ i _ h hji => hj (hji.trans h))]
      rfl
  have hrun := guarded_of_healthy (halone.mono fun _ _ _ _ => trivial) healthy
  have hguarded := (guarded_of_unacknowledged hrun hsends
    (Tasks.run_of_exec .start (by simp [failingSchedule]) hexec)).1
  obtain ⟨⟨i, o⟩, hhead, hmark⟩ := (Option.any_eq_true _ _).mp hcleared
  obtain ⟨hi, ho⟩ := Bool.and_eq_true_iff.mp hmark
  obtain rfl : i = 0 := of_decide_eq_true hi
  obtain rfl : o = .degraded := by
    cases o with
    | degraded => rfl
    | _ => cases ho
  have hsplit : gateway.log = gateway.log.take 13 ++ (0, .degraded) :: (gateway.log.drop 13).tail := by
    rw [← List.eq_cons_of_mem_head? hhead, List.take_append_drop]
  exact ⟨gateway, _, _, hsplit, hpre, htwo, hpost, no_egress_after_clear hguarded hsplit⟩

end AgentVeil
