import AgentVeil.Engine.Runs
import AgentVeil.Engine.Theorems

/-!
# What a run of the engine holds

Every value in the ledger is part of a text that its own session sent, of a class that the policy
tokenizes, and it is held for the lifetime of its class and no longer than the session is kept. So a
display text shows nothing else.
-/

namespace AgentVeil

open Rust

namespace PrivacyEngine

open TokenLedger (Kept Evicts)

variable {R : Type} [RandomSource R] {u : Unicode} {serde : SerdeJson} {engine : PrivacyEngine R}
  {scope : SessionScope} {now : Nat}

/-! ## Requested values -/

omit [RandomSource R] in
/-- A request asks a token for parts of its rewritten texts, of classes that the policy tokenizes. -/
theorem mem_requestedValues {request : ValidatedRequest} {c : DataClass} {v : Str}
    (h : (c, v) ∈ requestedValues u engine request scope now) :
    (engine.policy.ruleFor c).action = .tokenize ∧
      ∃ target ∈ request.targets, ∃ p q, target.mode = .rewrite ∧
        request.text target = .ok (p ++ v ++ q) := by
  unfold requestedValues at h
  have hplan := outcome_plan u engine request scope now
  generalize engine.plan u request scope now = r at h hplan
  obtain ⟨e | plans, l⟩ := r
  · cases h
  obtain ⟨plan, hmem, h⟩ := List.mem_flatMap.mp h
  obtain ⟨target, ht, hplanned⟩ := (exists_of_forall₂ hplan.2).2 plan hmem
  obtain ⟨f, hf, h⟩ := List.mem_flatMap.mp h
  unfold requested at h
  split at h
  · rename_i haction
    obtain ⟨text, hget, heq⟩ := List.mem_map.mp h
    obtain ⟨rfl, rfl⟩ := Prod.mk.inj heq
    obtain ⟨p, q, horiginal, _⟩ := get?_eq_some_iff.mp (Option.mem_toList.mp hget)
    obtain ⟨found, _, hres⟩ := hplanned.resolves
    obtain ⟨_, hg, hwidens⟩ := hres.origin f (List.mem_reverse.mp hf)
    obtain ⟨g, _, rfl⟩ := List.mem_map.mp hg
    -- the action of the finding is that of its class
    have hclass : f.1.dataClass = g.dataClass := by rw [hwidens.finding]
    have heffective := hwidens.action.symm.trans haction
    simp only [effectiveAction] at heffective
    split at heffective
    · cases heffective
    · unfold escalate at heffective
      split at heffective
      · cases heffective
      · rename_i hmode
        rw [hclass]
        refine ⟨heffective, target.1, List.fst_mem_of_mem_zipIdx ht, p, q, ?_, horiginal ▸ hplanned.text⟩
        cases hm : target.1.mode with
        | rewrite => rfl
        | blockOnly => exact absurd ⟨hm, by rw [heffective]; decide⟩ hmode
  · cases h

/-! ## Entries -/

/-- A call of the run asked for the value of the entry, and its session was not cleared since. -/
def Granted (u : Unicode) (serde : SerdeJson) (engine : PrivacyEngine R) (calls : List EngineCall)
    (e : Entry) : Prop :=
  ∃ before body now after request, calls = before ++ .protect body e.scope now :: after ∧
    ValidatedRequest.parse serde body = .ok request ∧
    (e.dataClass, e.value) ∈ requestedValues u (run u serde engine before) request e.scope now ∧
    e.expiresAtMs = now + ttlSeconds engine.policy e.dataClass * 1000 ∧
    .clearScope e.scope ∉ after

theorem Granted.kept {calls : List EngineCall} {e₀ e : Entry} (h : Granted u serde engine calls e₀)
    (hk : Kept e₀ e) {call : EngineCall} (hcall : call ≠ .clearScope e.scope) :
    Granted u serde engine (calls ++ [call]) e := by
  obtain ⟨before, body, at_, after, request, rfl, hparse, hasked, hx, hclear⟩ := h
  rw [← hk.scope, ← hk.dataClass, ← hk.value, ← hk.expiry] at *
  refine ⟨before, body, at_, after ++ [call], request, by simp, hparse, hasked, hx, ?_⟩
  rw [List.mem_append, List.mem_singleton, not_or]
  exact ⟨hclear, hcall.symm⟩

/-- An entry after a call was there before it and its session was not cleared, or the call asked for its
value. -/
theorem step_entry (call : EngineCall) {t : Token} {e : Entry}
    (he : (step u serde engine call).ledger.entries.get t = some e) :
    (call ≠ .clearScope e.scope ∧ ∃ e₀, engine.ledger.entries.get t = some e₀ ∧ Kept e₀ e) ∨
      ∃ body now request, call = .protect body e.scope now ∧
        ValidatedRequest.parse serde body = .ok request ∧
        (e.dataClass, e.value) ∈ requestedValues u engine request e.scope now ∧
        e.expiresAtMs = now + ttlSeconds engine.policy e.dataClass * 1000 := by
  rcases (step_steps u serde engine call).entry he with hkept | ⟨now, ttl, hop, hx⟩
  · refine .inl ⟨?_, hkept⟩
    rintro rfl
    simp only [step, clearScope, TokenLedger.clearScope, HashMap.get_retain] at he
    obtain ⟨_, hscope⟩ := Option.filter_eq_some_iff.mp he
    simp at hscope
  · cases hop with
    | issue parsed asked => exact .inr ⟨_, _, _, rfl, parsed, asked, hx⟩

theorem run_entry (empty : ∀ t, engine.ledger.entries.get t = none) (calls : List EngineCall)
    {t : Token} {e : Entry} (he : (run u serde engine calls).ledger.entries.get t = some e) :
    Granted u serde engine calls e := by
  induction calls using List.reverseRecOn generalizing e with
  | nil =>
      rw [run, List.foldl_nil, empty] at he
      cases he
  | append_singleton calls call ih =>
      rw [run_concat] at he
      rcases step_entry call he with ⟨hcall, e₀, he₀, hk⟩ | ⟨body, at_, request, rfl, hparse, hasked, hx⟩
      · exact (ih he₀).kept hk hcall
      · rw [run_policy] at hx
        exact ⟨calls, body, at_, [], request, rfl, hparse, hasked, hx, by simp⟩

/-- An entry after calls of other sessions was there before them. -/
theorem run_entry_other {calls : List EngineCall} {t : Token} {e : Entry}
    (others : ∀ call ∈ calls, call.scope ≠ some e.scope)
    (he : (run u serde engine calls).ledger.entries.get t = some e) :
    ∃ e₀, engine.ledger.entries.get t = some e₀ ∧ Kept e₀ e := by
  induction calls using List.reverseRecOn generalizing e with
  | nil => exact ⟨e, he, .refl e⟩
  | append_singleton calls call ih =>
      rw [run_concat] at he
      rcases step_entry call he with ⟨_, e₁, he₁, hk₁⟩ | ⟨body, at_, request, rfl, _⟩
      · obtain ⟨e₀, he₀, hk₀⟩ := ih (fun call hcall => hk₁.scope ▸ others call (by simp [hcall])) he₁
        exact ⟨e₀, he₀, hk₀.trans hk₁⟩
      · exact absurd rfl (others (.protect body e.scope at_)
          (List.mem_append_right calls (List.mem_singleton_self _)))

/-- In one of the calls an issue finds the ledger full, and the token is the one it evicts. -/
def Evicted (u : Unicode) (serde : SerdeJson) (engine : PrivacyEngine R) (calls : List EngineCall)
    (t : Token) : Prop :=
  ∃ before call after, calls = before ++ call :: after ∧
    Evicts (Operates u serde (run u serde engine before) call) (run u serde engine before).ledger
      (run u serde engine (before ++ [call])).ledger t

/-- An entry stays through calls of other sessions, up to its expiry, unless one of them evicts it. -/
theorem run_keeps_or_evicts {calls : List EngineCall} {t : Token} {e : Entry}
    (he : engine.ledger.entries.get t = some e) (others : ∀ call ∈ calls, call.scope ≠ some e.scope)
    (live : ∀ call ∈ calls, ∀ at_ ∈ call.nowMs, at_ < e.expiresAtMs) :
    (∃ e', (run u serde engine calls).ledger.entries.get t = some e' ∧ Kept e e') ∨
      Evicted u serde engine calls t := by
  induction calls using List.reverseRecOn with
  | nil => exact .inl ⟨e, he, .refl e⟩
  | append_singleton calls call ih =>
      obtain ⟨hcalls, hcall⟩ := List.forall_mem_append.mp others
      obtain ⟨hlives, hlive⟩ := List.forall_mem_append.mp live
      have hcall := List.forall_mem_singleton.mp hcall
      have hlive := List.forall_mem_singleton.mp hlive
      rcases ih hcalls hlives with ⟨e₁, he₁, hk₁⟩ | ⟨before, call', after, rfl, hev⟩
      · have hstep := (step_steps u serde (run u serde engine calls) call).keeps_or_evicts he₁
          fun op hop => by
            obtain ⟨hscope, hall, hnow⟩ := hop.spec
            refine ⟨?_, hall, fun at_ hat => ?_⟩
            · rw [hscope, hk₁.scope]
              exact hcall
            · rw [hk₁.expiry]
              exact hlive at_ (hnow at_ hat)
        rcases hstep with ⟨e₂, he₂, hk₂⟩ | hev
        · rw [run_concat]
          exact .inl ⟨e₂, he₂, hk₁.trans hk₂⟩
        · exact .inr ⟨calls, call, [], rfl, by rw [run_concat]; exact hev⟩
      · exact .inr ⟨before, call', after ++ [call], by simp, hev⟩

omit [RandomSource R] in
theorem withRandom_ok {map : HashMap Token Entry} {policy : ValidatedPolicy} {random : R}
    {capacity : Nat} (new : withRandom map policy random capacity = .ok engine) :
    engine.policy = policy ∧ TokenLedger.withRandom map capacity random = .ok engine.ledger := by
  unfold withRandom at new
  split at new
  · cases new
  · cases new
    exact ⟨rfl, ‹_›⟩

omit [RandomSource R] in
theorem empty_of_withRandom {map : HashMap Token Entry} {capacity : Nat} {random : R}
    {start : TokenLedger R} (new : TokenLedger.withRandom map capacity random = .ok start) (t : Token) :
    start.entries.get t = none := by
  unfold TokenLedger.withRandom at new
  split at new
  · cases new
  · cases new
    exact HashMap.get_clear map t

omit [RandomSource R] in
theorem maxEntries_of_withRandom {map : HashMap Token Entry} {capacity : Nat} {random : R}
    {start : TokenLedger R} (new : TokenLedger.withRandom map capacity random = .ok start) :
    start.maxEntries = capacity := by
  unfold TokenLedger.withRandom at new
  split at new
  · cases new
  · cases new
    rfl

/-- Every ledger that calls lead to keeps its invariant and never holds more entries than it was made
for, whatever its calls returned; and each entry was granted. -/
theorem run_ledger {map : HashMap Token Entry} {policy : ValidatedPolicy} {random : R} {capacity : Nat}
    (new : withRandom map policy random capacity = .ok engine) (calls : List EngineCall) :
    (∃ n, (run u serde engine calls).ledger.Invariant n) ∧
      (run u serde engine calls).ledger.entries.size ≤ capacity ∧
      ∀ t e, (run u serde engine calls).ledger.entries.get t = some e →
        Granted u serde engine calls e := by
  obtain ⟨_, hledger⟩ := withRandom_ok new
  obtain ⟨n, hreaches⟩ := run_reaches u serde engine calls
  have inv := hreaches.invariant (.new hledger)
  refine ⟨⟨n, inv⟩, ?_, fun t e he => run_entry (empty_of_withRandom hledger) calls he⟩
  rw [← maxEntries_of_withRandom hledger, ← hreaches.maxEntries]
  exact inv.capacity

theorem run_ledger_demo :
    (run Unicode.ascii mailSerde demoEngine [.protect (demoBody "a@b.co".toList) demoScope 0]
      ).ledger.entries.size ≤ 1 := by
  have new : withRandom HashMap.empty demoPolicy ⟨0⟩ 1 = .ok demoEngine := rfl
  obtain ⟨_, hsize, _⟩ := run_ledger (u := Unicode.ascii) new
    [.protect (demoBody "a@b.co".toList) demoScope 0]
  exact hsize

/-! ## Display texts -/

/-- A session sent the value in a text of a request, as one of a class that the policy tokenizes; since
then it was not cleared, and the lifetime of the class is not over. -/
def Retained (serde : SerdeJson) (policy : ValidatedPolicy) (calls : List EngineCall)
    (scope : SessionScope) (v : Str) (later : Nat) : Prop :=
  ∃ before body now after request c, calls = before ++ .protect body scope now :: after ∧
    .clearScope scope ∉ after ∧ ValidatedRequest.parse serde body = .ok request ∧
    (∃ target ∈ request.targets, ∃ p q, target.mode = .rewrite ∧
      request.text target = .ok (p ++ v ++ q)) ∧
    (policy.ruleFor c).action = .tokenize ∧ later < now + ttlSeconds policy c * 1000

/-- What a display text shows after any calls. Its candidates stay, or they are replaced by values that
the session itself sent, within their lifetime; everything else is the text that was given. -/
theorem restoreDisplayText_retained {map : HashMap Token Entry} {policy : ValidatedPolicy} {random : R}
    {capacity : Nat} (new : withRandom map policy random capacity = .ok engine)
    (calls : List EngineCall) (scope : SessionScope) (text : Str) (later : Nat) :
    ∃ (ps : List (Str × Str)) (last : Str) (shown : Str → Str), text = splice id ps last ∧
      ((run u serde engine calls).restoreDisplayText scope text later).1
        = some (splice shown ps last) ∧
      (∀ p ∈ ps, Free IsCandidate p.1 ∧ IsCandidate p.2) ∧ Free IsCandidate last ∧
      ∀ t, shown t = t ∨ Retained serde policy calls scope (shown t) later := by
  obtain ⟨rfl, hledger⟩ := withRandom_ok new
  obtain ⟨ps, last, htext, hparts, hlast, hrestore⟩ := @exists_candidates R text
  refine ⟨ps, last, _, htext, hrestore, hparts, hlast, ?_⟩
  intro t
  rcases (run u serde engine calls).ledger.reveal_cases scope later t with
    ⟨v, ⟨e, he, rfl, hx, rfl⟩, hr⟩ | ⟨_, hr⟩
  · right
    rw [hr]
    obtain ⟨before, body, at_, after, request, hcalls, hparse, hasked, hexpiry, hclear⟩ :=
      run_entry (empty_of_withRandom hledger) calls he
    obtain ⟨htokenize, htarget⟩ := mem_requestedValues hasked
    rw [run_policy] at htokenize
    exact ⟨before, body, at_, after, request, e.dataClass, hcalls, hclear, hparse, htarget, htokenize,
      hexpiry ▸ hx⟩
  · exact .inl hr

theorem restoreDisplayText_retained_demo : ∃ (ps : List (Str × Str)) (last : Str) (shown : Str → Str),
    demoToken = splice id ps last ∧
      ((run Unicode.ascii mailSerde demoEngine [.protect (demoBody "a@b.co".toList) demoScope 0]
        ).restoreDisplayText demoScope demoToken 1).1 = some (splice shown ps last) ∧
      ∀ t, shown t = t ∨ Retained mailSerde demoPolicy
        [.protect (demoBody "a@b.co".toList) demoScope 0] demoScope (shown t) 1 := by
  have new : withRandom HashMap.empty demoPolicy ⟨0⟩ 1 = .ok demoEngine := rfl
  obtain ⟨ps, last, shown, htext, hshown, _, _, hretained⟩ := restoreDisplayText_retained
    (u := Unicode.ascii) new [.protect (demoBody "a@b.co".toList) demoScope 0] demoScope demoToken 1
  exact ⟨ps, last, shown, htext, hshown, hretained⟩

/-- Other sessions never change what a session is shown. After any calls of other sessions, up to the time
of the display, each candidate of a text is replaced as it was before them, or it stays, and then one of the
calls evicted its entry. -/
theorem restoreDisplayText_isolated (u : Unicode) (serde : SerdeJson) (engine : PrivacyEngine R)
    (scope : SessionScope) (text : Str) (now : Nat) {calls : List EngineCall}
    (others : ∀ call ∈ calls, call.scope ≠ some scope)
    (times : ∀ call ∈ calls, ∀ at_ ∈ call.nowMs, at_ ≤ now) :
    ∃ (ps : List (Str × Str)) (last : Str), text = splice id ps last ∧
      (engine.restoreDisplayText scope text now).1
        = some (splice (engine.ledger.reveal scope now) ps last) ∧
      ((run u serde engine calls).restoreDisplayText scope text now).1
        = some (splice ((run u serde engine calls).ledger.reveal scope now) ps last) ∧
      (∀ p ∈ ps, Free IsCandidate p.1 ∧ IsCandidate p.2) ∧ Free IsCandidate last ∧
      ∀ t, (run u serde engine calls).ledger.reveal scope now t = engine.ledger.reveal scope now t ∨
        (run u serde engine calls).ledger.reveal scope now t = t ∧ Evicted u serde engine calls t := by
  obtain ⟨ps, last, htext, hparts, hlast, hrestore⟩ := @exists_candidates R text
  refine ⟨ps, last, htext, hrestore, hrestore, hparts, hlast, ?_⟩
  intro t
  rcases (run u serde engine calls).ledger.reveal_cases scope now t with
    ⟨v, ⟨e, he, rfl, hx, rfl⟩, hr⟩ | ⟨hnone, hr⟩
  · left
    obtain ⟨e₀, he₀, hk⟩ := run_entry_other others he
    have hmaps : engine.ledger.Maps e.scope t e.value now :=
      ⟨e₀, he₀, hk.scope.symm, hk.expiry ▸ hx, hk.value.symm⟩
    rw [hr, hmaps.reveal]
  · rcases engine.ledger.reveal_cases scope now t with ⟨v, ⟨e, he, rfl, hx, rfl⟩, _⟩ | ⟨_, hr₀⟩
    · -- what stood for a value and does not any more was evicted
      right
      refine ⟨hr, (run_keeps_or_evicts he others fun call hcall at_ hat =>
        Nat.lt_of_le_of_lt (times call hcall at_ hat) hx).resolve_left ?_⟩
      rintro ⟨e', he', hk⟩
      exact hnone e.value ⟨e', he', hk.scope, hk.expiry ▸ hx, hk.value⟩
    · exact .inl (hr.trans hr₀.symm)

/-- A call of another session. -/
def otherCalls : List EngineCall := [.protect (demoBody "a@b.co".toList) otherScope 1]

/-- The ledger of the demonstration has one entry, and the call of the other session evicts it. -/
theorem reveal_otherCalls :
    demoLater.ledger.reveal demoScope 1 demoToken = "a@b.co".toList ∧
      (run Unicode.ascii mailSerde demoLater otherCalls).ledger.reveal demoScope 1 demoToken
        = demoToken := by
  decide +kernel

theorem restoreDisplayText_isolated_demo :
    (∃ (ps : List (Str × Str)) (last : Str), demoToken = splice id ps last ∧
      (demoLater.restoreDisplayText demoScope demoToken 1).1
        = some (splice (demoLater.ledger.reveal demoScope 1) ps last) ∧
      ((run Unicode.ascii mailSerde demoLater otherCalls).restoreDisplayText demoScope demoToken 1).1
        = some (splice ((run Unicode.ascii mailSerde demoLater otherCalls).ledger.reveal demoScope 1) ps
            last)) ∧
    demoLater.ledger.reveal demoScope 1 demoToken = "a@b.co".toList ∧
    Evicted Unicode.ascii mailSerde demoLater otherCalls demoToken := by
  have others : ∀ call ∈ otherCalls, call.scope ≠ some demoScope := by decide
  have times : ∀ call ∈ otherCalls, ∀ at_ ∈ call.nowMs, at_ ≤ 1 := by decide
  obtain ⟨hbefore, hafter⟩ := reveal_otherCalls
  obtain ⟨ps, last, htext, hshown, hshown', _, _, hreveal⟩ := restoreDisplayText_isolated
    Unicode.ascii mailSerde demoLater demoScope demoToken 1 others times
  refine ⟨⟨ps, last, htext, hshown, hshown'⟩, hbefore, ?_⟩
  rcases hreveal demoToken with hsame | ⟨_, hevicted⟩
  · rw [hbefore, hafter] at hsame
    exact absurd hsame (by decide)
  · exact hevicted

end PrivacyEngine

end AgentVeil
