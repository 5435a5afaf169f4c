import AgentVeil.Engine.Retention
import AgentVeil.Gateway.Theorems

/-!
# The engine of a gateway

The turns of a gateway that reach its engine are calls for its one session, one after the other: an
admitted request protects its body at most once, and restores only after that. So the engine of a
gateway is that of a run, and it holds parts of the admitted bodies only.
-/

namespace AgentVeil

open Rust
open PrivacyEngine (demoEngine mailSerde)

variable {R : Type} [RandomSource R] {state : GatewayState}

/-! ## One turn -/

/-- The handler has not called `protect`. -/
def Handler.early : Handler → Bool
  | .arrived | .admitted | .numbered _ _ => true
  | _ => false

/-- The handler has called `protect` and goes on. -/
def Handler.called : Handler → Bool
  | .arrived | .admitted | .numbered _ _ | .finished _ => false
  | _ => true

theorem Handler.late_of_called {handler : Handler} (h : handler.called = true) :
    handler.early = false := by
  cases handler with
  | arrived | admitted | numbered => cases h
  | _ => rfl

/-- What a turn does to the engine. -/
inductive EngineTurn (state : GatewayState) (request : Request) (engine : PrivacyEngine R) :
    Handler → Handler → PrivacyEngine R → Prop where
  | early {handler handler'} (before : handler.early = true) (after : handler'.early = true) :
      EngineTurn state request engine handler handler' engine
  | called {handler handler'} (before : handler.called = true) (after : handler'.early = false) :
      EngineTurn state request engine handler handler' engine
  | ended {handler response} : EngineTurn state request engine handler (.finished response) engine
  | protect {eventId requestSequence handler' nowMs engine'} (after : handler'.early = false)
      (call : engine' = engine.step state.unicode state.serde (.protect request.body state.scope nowMs)) :
      EngineTurn state request engine (.numbered eventId requestSequence) handler' engine'
  | restore {text nowMs} : EngineTurn state request engine .relaying .relaying
      (engine.step state.unicode state.serde (.restoreDisplayText state.scope text nowMs))

theorem afterAudit_late (call : AuditCall) (next : Next) (written : Bool) :
    (afterAudit call next written).early = false := by
  cases next with
  | respond | relay => rfl
  | send =>
      cases written with
      | true => rfl
      | false => rfl

theorem engineTurn {request : Request} {choice : Choice} {handler handler' : Handler}
    {shared shared' : Shared R} {o : Observation}
    (move : state.responses request choice handler shared = some (o, handler', shared')) :
    EngineTurn state request shared.engine handler handler' shared'.engine := by
  unfold GatewayState.responses at move
  split at move
  · split at move
    · cases move; exact .ended
    · cases move; exact .early rfl rfl
  · split at move
    · cases move; exact .ended
    · cases move; exact .early rfl rfl
  · split at move
    · cases move; exact .protect rfl (congrArg Prod.snd ‹_ = (_, _)›).symm
    · cases move; exact .protect rfl (congrArg Prod.snd ‹_ = (_, _)›).symm
    · cases move; exact .protect rfl (congrArg Prod.snd ‹_ = (_, _)›).symm
  · split at move
    · cases move; exact .called rfl rfl
    · split at move
      · cases move; exact .called rfl rfl
      · cases move; exact .called rfl rfl
  · cases move; exact .called rfl (afterAudit_late _ _ _)
  · cases move; exact .called rfl (afterAudit_late _ _ _)
  · cases move; exact .called rfl rfl
  · cases move; exact .called rfl rfl
  · split at move
    · cases move
    · cases move; exact .restore
  · cases move; exact .ended
  · cases move; exact .ended
  · cases move; exact .ended
  · cases move; exact .ended
  · cases move

/-! ## The calls of one request -/

/-- The calls that a request has made of the engine, by where its handler is. -/
inductive Calls (state : GatewayState) (request : Request) : Handler → List EngineCall → Prop where
  | before {handler} (early : handler.early = true) : Calls state request handler []
  | ended {response} : Calls state request (.finished response) []
  | after {handler nowMs restores} (admissible : Admissible state request)
      (late : handler.early = false)
      (restored : ∀ call ∈ restores, ∃ text nowMs, call = .restoreDisplayText state.scope text nowMs) :
      Calls state request handler (.protect request.body state.scope nowMs :: restores)

/-- A turn makes no call, or it makes one more. -/
theorem Calls.turn {request : Request} {handler handler' : Handler} {calls : List EngineCall}
    {engine engine' : PrivacyEngine R} (h : Calls state request handler calls)
    (turn : EngineTurn state request engine handler handler' engine')
    (numbered : ∀ eventId requestSequence, handler = .numbered eventId requestSequence →
      Admissible state request) :
    (engine' = engine ∧ Calls state request handler' calls) ∨
      ∃ call, engine' = engine.step state.unicode state.serde call ∧
        Calls state request handler' (calls ++ [call]) := by
  cases turn with
  | early before after =>
      cases h with
      | before => exact .inl ⟨rfl, .before after⟩
      | ended => cases before
      | after _ late _ => rw [before] at late; cases late
  | called before after =>
      cases h with
      | before early => rw [Handler.late_of_called before] at early; cases early
      | ended => cases before
      | after admissible _ restored => exact .inl ⟨rfl, .after admissible after restored⟩
  | ended =>
      cases h with
      | before | ended => exact .inl ⟨rfl, .ended⟩
      | after admissible _ restored => exact .inl ⟨rfl, .after admissible rfl restored⟩
  | protect after call =>
      cases h with
      | before => exact .inr ⟨_, call, .after (numbered _ _ rfl) after (by simp)⟩
      | after _ late _ => cases late
  | @restore text nowMs =>
      cases h with
      | before early => cases early
      | after admissible late restored =>
          refine .inr ⟨_, rfl, .after admissible late ?_⟩
          intro call hcall
          rcases List.mem_append.mp hcall with hcall | hcall
          · exact restored call hcall
          · exact ⟨text, nowMs, List.mem_singleton.mp hcall⟩

/-! ## The calls of all requests -/

variable {ι : Type} [DecidableEq ι] {requests : ι → Request} {engine : PrivacyEngine R}
  {file : List UInt8} {meets : Gateway ι R → ι → Choice → Prop} {gateway : Gateway ι R}

/-- The engine of a gateway is that of a run of calls, and each request made its own calls in order. -/
theorem engine_run (h : Tasks.Run (state.turns requests) meets (Gateway.new engine file) gateway) :
    ∃ calls : List (ι × EngineCall),
      gateway.shared.engine = engine.run state.unicode state.serde (calls.map Prod.snd) ∧
      ∀ i, Calls state (requests i) (gateway.locals i) (events i calls) := by
  induction h with
  | start => exact ⟨[], rfl, fun i => .before rfl⟩
  | @turn t t' i c run _ move ih =>
      obtain ⟨calls, hengine, hcalls⟩ := ih
      obtain ⟨o, l, s, hnext, rfl⟩ := Tasks.turn_eq_some.mp move
      have numbered : ∀ eventId requestSequence, t.locals i = .numbered eventId requestSequence →
          Admissible state (requests i) := by
        intro eventId requestSequence hlocal
        have hcourse := course run i
        rw [hlocal] at hcourse
        generalize events i t.log = os at hcourse
        cases hcourse with
        | numbered admissible => exact admissible
      rcases (hcalls i).turn (engineTurn hnext) numbered with ⟨hsame, hi⟩ | ⟨call, hcall, hi⟩
      · refine ⟨calls, hsame.trans hengine, fun j => ?_⟩
        by_cases hj : j = i
        · subst hj
          simpa using hi
        · simpa [Function.update_of_ne hj] using hcalls j
      · refine ⟨calls ++ [(i, call)], ?_, fun j => ?_⟩
        · rw [List.map_append, List.map_singleton, PrivacyEngine.run_concat, ← hengine]
          exact hcall
        · rw [events_append]
          by_cases hj : j = i
          · subst hj
            simpa using hi
          · simpa [Function.update_of_ne hj, events_other (Ne.symm hj)] using hcalls j

/-- The value is part of a text of an admitted request, of a class that the policy tokenizes. -/
def Admitted (state : GatewayState) (requests : ι → Request) (policy : ValidatedPolicy) (c : DataClass)
    (v : Str) : Prop :=
  (policy.ruleFor c).action = .tokenize ∧
    ∃ i request, Admissible state (requests i) ∧
      ValidatedRequest.parse state.serde (requests i).body = .ok request ∧
      ∃ target ∈ request.targets, ∃ p q, target.mode = .rewrite ∧
        request.text target = .ok (p ++ v ++ q)

/-- The gateway's engine holds parts of admitted texts only, for its own session. -/
theorem entry_admitted (empty : ∀ t, engine.ledger.entries.get t = none)
    (h : Tasks.Run (state.turns requests) meets (Gateway.new engine file) gateway) {t : Token} {e : Entry}
    (he : gateway.shared.engine.ledger.entries.get t = some e) :
    e.scope = state.scope ∧ Admitted state requests engine.policy e.dataClass e.value := by
  obtain ⟨calls, hengine, hcalls⟩ := engine_run h
  rw [hengine] at he
  obtain ⟨before, body, now, after, request, hsplit, hparse, hasked, _⟩ :=
    PrivacyEngine.run_entry empty _ he
  obtain ⟨htokenize, htarget⟩ := PrivacyEngine.mem_requestedValues hasked
  rw [PrivacyEngine.run_policy] at htokenize
  -- the call that asked for the value is that of one of the requests
  have hmem : .protect body e.scope now ∈ calls.map Prod.snd := by rw [hsplit]; simp
  obtain ⟨⟨i, call⟩, hcall, rfl⟩ := List.mem_map.mp hmem
  have hown := mem_events.mpr hcall
  have hi := hcalls i
  generalize events i calls = own at hown hi
  generalize gateway.locals i = handler at hi
  cases hi with
  | before | ended => cases hown
  | after admissible _ restored =>
      rcases List.mem_cons.mp hown with heq | hown
      · obtain ⟨hbody, hscope, _⟩ := EngineCall.protect.inj heq
        exact ⟨hscope, htokenize, i, request, admissible, hbody ▸ hparse, htarget⟩
      · obtain ⟨_, _, heq⟩ := restored _ hown
        cases heq

/-- Whatever the order of the turns, the engine of a gateway is that of a sequence of calls in which each
request protects its body at most once, when it is admitted, and restores only after that. So its ledger
keeps the invariant and the capacity, and every entry is part of an admitted text. -/
theorem engine_sequential {map : HashMap Token Entry} {policy : ValidatedPolicy} {random : R}
    {capacity : Nat} (new : PrivacyEngine.withRandom map policy random capacity = .ok engine)
    (h : Tasks.Run (state.turns requests) meets (Gateway.new engine file) gateway) :
    (∃ calls : List (ι × EngineCall),
      gateway.shared.engine = engine.run state.unicode state.serde (calls.map Prod.snd) ∧
      ∀ i, Calls state (requests i) (gateway.locals i) (events i calls)) ∧
    (∃ n, gateway.shared.engine.ledger.Invariant n) ∧
    gateway.shared.engine.ledger.entries.size ≤ capacity ∧
    ∀ t e, gateway.shared.engine.ledger.entries.get t = some e →
      e.scope = state.scope ∧ Admitted state requests policy e.dataClass e.value := by
  obtain ⟨calls, hengine, hcalls⟩ := engine_run h
  obtain ⟨rfl, hledger⟩ := PrivacyEngine.withRandom_ok new
  obtain ⟨n, hreaches⟩ :=
    PrivacyEngine.run_reaches state.unicode state.serde engine (calls.map Prod.snd)
  rw [← hengine] at hreaches
  have inv := hreaches.invariant (.new hledger)
  refine ⟨⟨calls, hengine, hcalls⟩, ⟨n, inv⟩, ?_, fun t e he => ?_⟩
  · rw [← PrivacyEngine.maxEntries_of_withRandom hledger, ← hreaches.maxEntries]
    exact inv.capacity
  · exact entry_admitted (PrivacyEngine.empty_of_withRandom hledger) h he

/-- A gateway that has protected the body of request 1. -/
theorem engine_sequential_demo : ∃ (gateway : Gateway Nat CounterRandom)
    (calls : List (Nat × EngineCall)), gateway.log.any (·.2.isSent) = true ∧
      gateway.shared.engine = demoEngine.run Unicode.ascii mailSerde (calls.map Prod.snd) ∧
      (∀ i, Calls demoGateway (demoRequests i) (gateway.locals i) (events i calls)) ∧
      gateway.shared.engine.ledger.entries.size ≤ 1 ∧
      ∀ t e, gateway.shared.engine.ledger.entries.get t = some e → e.scope = demoScope ∧
        Admitted demoGateway demoRequests PrivacyEngine.demoPolicy e.dataClass e.value := by
  obtain ⟨gateway, hreach, hsent⟩ := exists_sent
  have new : PrivacyEngine.withRandom HashMap.empty PrivacyEngine.demoPolicy ⟨0⟩ 1 = .ok demoEngine := rfl
  obtain ⟨⟨calls, hengine, hcalls⟩, _, hsize, hentries⟩ := engine_sequential new hreach
  exact ⟨gateway, calls, hsent, hengine, hcalls, hsize, hentries⟩

/-- What a gateway shows: in whatever state its requests are, each candidate of a display text stays, or
it is replaced by part of a text that an admitted request sent; everything else is the text that was
given. -/
theorem restored_admitted {map : HashMap Token Entry} {policy : ValidatedPolicy} {random : R}
    {capacity : Nat} (new : PrivacyEngine.withRandom map policy random capacity = .ok engine)
    (h : Tasks.Run (state.turns requests) meets (Gateway.new engine file) gateway)
    (text : Str) (now : Nat) :
    ∃ (ps : List (Str × Str)) (last : Str) (shown : Str → Str), text = splice id ps last ∧
      (gateway.shared.engine.restoreDisplayText state.scope text now).1 = some (splice shown ps last) ∧
      (∀ p ∈ ps, Free IsCandidate p.1 ∧ IsCandidate p.2) ∧
      Free IsCandidate last ∧
      ∀ t, shown t = t ∨ ∃ c, Admitted state requests policy c (shown t) := by
  obtain ⟨rfl, hledger⟩ := PrivacyEngine.withRandom_ok new
  obtain ⟨ps, last, htext, hparts, hlast, hrestore⟩ := @PrivacyEngine.exists_candidates R text
  refine ⟨ps, last, _, htext, hrestore, hparts, hlast, fun t => ?_⟩
  rcases gateway.shared.engine.ledger.reveal_cases state.scope now t with
    ⟨v, ⟨e, he, _, _, rfl⟩, hr⟩ | ⟨_, hr⟩
  · right
    rw [hr]
    exact ⟨e.dataClass, (entry_admitted (PrivacyEngine.empty_of_withRandom hledger) h he).2⟩
  · exact .inl hr

theorem restored_admitted_demo : ∃ (gateway : Gateway Nat CounterRandom) (ps : List (Str × Str))
    (last : Str) (shown : Str → Str), gateway.log.any (·.2.isSent) = true ∧
      PrivacyEngine.demoToken = splice id ps last ∧
      (gateway.shared.engine.restoreDisplayText demoScope PrivacyEngine.demoToken 1).1
        = some (splice shown ps last) ∧
      ∀ t, shown t = t ∨ ∃ c, Admitted demoGateway demoRequests PrivacyEngine.demoPolicy c (shown t) := by
  obtain ⟨gateway, hreach, hsent⟩ := exists_sent
  have new : PrivacyEngine.withRandom HashMap.empty PrivacyEngine.demoPolicy ⟨0⟩ 1 = .ok demoEngine := rfl
  obtain ⟨ps, last, shown, htext, hshown, _, _, hadmitted⟩ :=
    restored_admitted new hreach PrivacyEngine.demoToken 1
  exact ⟨gateway, ps, last, shown, hsent, htext, hshown, hadmitted⟩

end AgentVeil
