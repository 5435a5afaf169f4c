import AgentVeil.Engine.Noninterference
import AgentVeil.Engine.Runs

/-!
# What an upstream sees of a session

Two runs of calls that differ in protected values only send the same bodies upstream, whatever is
restored for the client in between: the ledgers they lead to are the same but for these values.
-/

namespace AgentVeil

open Rust
open Rust.Value (mapStrings)
open TokenLedger (Renamed renamed_self)

/-- The body that an outcome sends upstream. -/
def ProtectionOutcome.body : ProtectionOutcome → Option (List UInt8)
  | .forward request => some request.body
  | .blocked _ => none

namespace PrivacyEngine

variable {R : Type} {u : Unicode} {serde : SerdeJson} {engine engine' : PrivacyEngine R}
  {body body' : List UInt8} {scope : SessionScope} {now : Nat} {φ : DataClass → Str → Str}
  {request request' : ValidatedRequest} {plans plans' : List TargetPlan}
  {ledger ledger' : TokenLedger R} {policy : ValidatedPolicy}

/-! ## Plans over two ledgers -/

/-- Ledgers that correspond allow the same tokens. -/
theorem effectiveAction_renamed (renamed : Renamed φ scope now ledger ledger') (mode : RewriteMode)
    (text : Str) (f : Finding) : effectiveAction policy ledger' scope now mode text f
      = effectiveAction policy ledger scope now mode text f := by
  unfold effectiveAction ownsFinding
  simp only [renamed.ownsToken]

theorem Planned.of_renamed (renamed : Renamed φ scope now ledger ledger') {target : TextTarget × Nat}
    {plan : TargetPlan} (h : Planned u policy request ledger' scope now target plan) :
    Planned u policy request ledger scope now target plan where
  index := h.index
  text := h.text
  findings := by
    obtain ⟨found, hs, hf⟩ := h.findings
    refine ⟨found, hs, ?_⟩
    simp only [actions, effectiveAction_renamed renamed] at hf
    exact hf

theorem blocks_iff_mem : (summarize plans).blocks = true ↔
    .block ∈ plans.flatMap fun plan => plan.findings.map Prod.snd := by
  rw [blocks_summarize, List.mem_flatMap]
  simp only [List.mem_map]

/-- Plans that correspond block alike. -/
theorem blocks_correspond (h : List.Forall₂ (PlansCorrespond φ) plans plans') :
    (summarize plans').blocks = true ↔ (summarize plans).blocks = true := by
  have hactions : (plans'.flatMap fun plan => plan.findings.map Prod.snd)
      = plans.flatMap fun plan => plan.findings.map Prod.snd := by
    induction h with
    | nil => rfl
    | @cons plan plan' _ _ hplan _ ih =>
        have hsnd := congrArg (List.map Prod.snd) hplan.shape
        rw [List.map_map, List.map_map] at hsnd
        have hsnd : plan'.findings.map Prod.snd = plan.findings.map Prod.snd := hsnd
        rw [List.flatMap_cons, List.flatMap_cons, ih, hsnd]
  rw [blocks_iff_mem, blocks_iff_mem, hactions]

/-! ## One call -/

variable [RandomSource R]

/-- The parts of a call that returns an outcome. -/
theorem protect_answered {o : ProtectionOutcome}
    (h : (protect u serde engine body scope now).1 = .ok o) :
    ∃ request plans ledger, Judged u serde engine body scope now request plans ledger ∧
      ((summarize plans).blocks = true ∧ o.body = none ∧
        (protect u serde engine body scope now).2.ledger = ledger ∨
      ¬(summarize plans).blocks = true ∧ ∃ us st,
        applyRewrites engine.policy scope now plans ⟨request, ledger, []⟩ = (.ok us, st) ∧
        o.body = serde.toVec st.request.value ∧
        (protect u serde engine body scope now).2.ledger = st.ledger) := by
  generalize hr : protect u serde engine body scope now = r at h ⊢
  unfold protect at hr
  split at hr
  · subst hr
    cases h
  rename_i hsize
  split at hr
  · subst hr
    cases h
  rename_i request hparse
  have hplans := outcome_plan u engine request scope now
  generalize hplan : engine.plan u request scope now = result at hr hplans
  obtain ⟨e | plans, ledger⟩ := result
  · subst hr
    cases h
  have judged : Judged u serde engine body scope now request plans ledger :=
    ⟨Nat.le_of_not_lt hsize, hparse, hplan, hplans.1, hplans.2⟩
  refine ⟨request, plans, ledger, judged, ?_⟩
  simp only at hr
  split at hr
  · rename_i hblocks
    subst hr
    cases h
    exact .inl ⟨hblocks, rfl, rfl⟩
  · rename_i hblocks
    refine .inr ⟨hblocks, ?_⟩
    unfold forward at hr
    generalize happly : applyRewrites engine.policy scope now plans ⟨request, ledger, []⟩ = result at hr
    obtain ⟨e | us, st⟩ := result
    · cases e with
      | _ =>
          subst hr
          cases h
    cases hser : st.request.serialize serde with
    | error e =>
        simp only [hser] at hr
        subst hr
        cases h
    | ok output =>
        simp only [hser] at hr
        subst hr
        cases h
        exact ⟨us, st, rfl, (okOr_ok_iff.mp hser).symm, rfl⟩

/-- The requests that two calls forward are the same. -/
theorem rewritten_value_eq (hφ : ∀ c, Function.Injective (φ c)) {f : Path → Str → Str}
    (htracks : request.Tracks) (htracks' : request'.Tracks)
    (hvalue : request'.value = mapStrings f request.value) (htargets : request'.targets = request.targets)
    (hplans : List.Forall₂ (Planned u policy request ledger scope now) request.targets.zipIdx plans)
    (hplans' : List.Forall₂ (Planned u policy request' ledger scope now) request.targets.zipIdx plans')
    (hcorr : List.Forall₂ (PlansCorrespond φ) plans plans') {l l' : TokenLedger R}
    (hl : Renamed φ scope now l l') {us us' : List Unit} {st st' : Rewriting R}
    (h : applyRewrites policy scope now plans ⟨request, l, []⟩ = (.ok us, st))
    (h' : applyRewrites policy scope now plans' ⟨request', l', []⟩ = (.ok us', st')) :
    st'.request.value = st.request.value ∧ Renamed φ scope now st.ledger st'.ledger := by
  have hstart : ∀ request : ValidatedRequest,
      request = { request with value := mapStrings (fun _ s => s) request.value } := fun request => by
    rw [Value.mapStrings_self]
  obtain ⟨k, k', hk, hk', ⟨_, hlast⟩, hsame⟩ := applyRewrites_corresponds hφ hplans hplans' hcorr
    (fun t ht => List.mk_mem_zipIdx_iff_getElem?.mp ht) htargets
    (by rw [leafPaths_zipIdx]; exact htracks.paths.nodup_iff.mpr htracks.canonical.nodup_leaves)
    htracks.canonical htracks'.canonical (hstart request) (hstart request')
    (fun _ _ _ _ => ⟨rfl, rfl⟩) hl h h'
  refine ⟨?_, hlast⟩
  rw [hk, hk', hvalue, Value.mapStrings_mapStrings]
  refine Value.mapStrings_congr _ fun q hq => ?_
  -- the string at `q` is the text of a target in both requests
  obtain ⟨t, ht, hpath⟩ := List.mem_map.mp (htracks.paths.mem_iff.mpr
    (List.mem_map.mpr ⟨q, hq, rfl⟩))
  obtain ⟨htmem, hliteral⟩ := List.mem_filter.mp ht
  have hliteral : t.literal = none := by simpa using hliteral
  obtain ⟨i, hi⟩ := List.mem_iff_getElem?.mp htmem
  have hget := htracks.canonical.mem_leaves.mp hq
  have hget' : request'.value.get? q.1 = some (.string (f q.1 q.2)) := by
    rw [hvalue, Value.get?_mapStrings, hget, Option.map_some]
    simp only [mapStrings, List.append_nil]
  have htext : ∀ (request : ValidatedRequest) s, request.value.get? q.1 = some (.string s) →
      request.text t = .ok s := by
    intro request s hget
    rw [ValidatedRequest.text, hliteral]
    simp only [locate, hpath, hget, okOr, ok_bind, Value.asStr]
  have := hsame (t, i) (List.mk_mem_zipIdx_iff_getElem?.mpr hi) hliteral q.2 (f q.1 q.2)
    (htext request _ hget) (htext request' _ hget')
  rwa [hpath] at this

/-- Two calls on requests that differ in protected values only: both block, or both send the same body;
and the ledgers still correspond. -/
theorem protect_renamed {f : Path → Str → Str} {o o' : ProtectionOutcome}
    (hφ : ∀ c, Function.Injective (φ c)) (renamed : Renamed φ scope now engine.ledger engine'.ledger)
    (hpolicy : engine'.policy = engine.policy)
    (hparse : ValidatedRequest.parse serde body = .ok request)
    (hparse' : ValidatedRequest.parse serde body' = .ok request')
    (hdiff : DiffersInProtected u engine scope now φ f request.value request'.value)
    (h : (protect u serde engine body scope now).1 = .ok o)
    (h' : (protect u serde engine' body' scope now).1 = .ok o') :
    o'.body = o.body ∧ Renamed φ scope now (protect u serde engine body scope now).2.ledger
      (protect u serde engine' body' scope now).2.ledger := by
  obtain ⟨htracks, _⟩ := parse_tracks hparse
  obtain ⟨htracks', _⟩ := parse_tracks hparse'
  have htargets : request'.targets = request.targets := by
    simp only [ValidatedRequest.parse, bind_ok_iff, okOr_ok_iff] at hparse hparse'
    obtain ⟨v, _, hv⟩ := hparse
    obtain ⟨v', _, hv'⟩ := hparse'
    obtain rfl := ofValue_value hv
    obtain rfl := ofValue_value hv'
    rw [hdiff.value, ofValue_rewritten hv hdiff.kept] at hv'
    exact (congrArg ValidatedRequest.targets (Except.ok.inj hv')).symm
  obtain ⟨_, plans, ledger, judged, hcases⟩ := protect_answered h
  obtain ⟨_, plans', ledger', judged', hcases'⟩ := protect_answered h'
  obtain rfl := Except.ok.inj (hparse.symm.trans judged.parsed)
  obtain rfl := Except.ok.inj (hparse'.symm.trans judged'.parsed)
  have hplanned' := judged'.planned.imp fun _ _ => Planned.of_renamed renamed
  rw [htargets, hpolicy] at hplanned'
  have hcorr : List.Forall₂ (PlansCorrespond φ) plans plans' :=
    forall₂_plansCorrespond htracks hdiff (fun t ht => List.fst_mem_of_mem_zipIdx ht) judged.planned
      hplanned'
  have hblocks := blocks_correspond hcorr
  have hl : Renamed φ scope now ledger ledger' := by
    rw [Renamed, plan_purgeExpired judged.plan, plan_purgeExpired judged'.plan]
    exact renamed
  rcases hcases with ⟨hb, ho, hledger⟩ | ⟨hb, us, st, happly, ho, hledger⟩
  · rcases hcases' with ⟨_, ho', hledger'⟩ | ⟨hb', _⟩
    · rw [ho, ho', hledger, hledger']
      exact ⟨rfl, hl⟩
    · exact absurd (hblocks.mpr hb) hb'
  · rcases hcases' with ⟨hb', _⟩ | ⟨_, us', st', happly', ho', hledger'⟩
    · exact absurd (hblocks.mp hb') hb
    · rw [hpolicy] at happly'
      obtain ⟨hvalue, hlast⟩ := rewritten_value_eq hφ htracks htracks' hdiff.value htargets
        judged.planned hplanned' hcorr hl happly happly'
      rw [ho, ho', hvalue, hledger, hledger']
      exact ⟨rfl, hlast⟩

omit [RandomSource R] in
/-- A restoration that returns a text looks up every candidate. -/
theorem restoreMatches_ledger {ms : List Match} {text restored : Str}
    (h : (restoreMatches scope now ms text ledger).1 = some restored) :
    (restoreMatches scope now ms text ledger).2
      = ms.foldl (fun l m => (l.restoreExact scope m.text now).2) ledger := by
  induction ms generalizing text ledger with
  | nil => rfl
  | cons m ms ih =>
      unfold restoreMatches at h ⊢
      rw [List.foldl_cons]
      generalize ledger.restoreExact scope m.text now = r at h ⊢
      obtain ⟨value, l⟩ := r
      cases value with
      | none => exact ih h
      | some value =>
          simp only at h ⊢
          cases hreplace : replaceRange? text m.range value with
          | none =>
              rw [hreplace] at h
              cases h
          | some next =>
              rw [hreplace] at h
              exact ih h

omit [RandomSource R] in
/-- The same text is restored for both clients. -/
theorem restoreDisplayText_renamed (renamed : Renamed φ scope now engine.ledger engine'.ledger)
    (text : Str) : Renamed φ scope now (engine.restoreDisplayText scope text now).2.ledger
      (engine'.restoreDisplayText scope text now).2.ledger := by
  have hledger : ∀ engine : PrivacyEngine R, (engine.restoreDisplayText scope text now).2.ledger
      = (Regex.findIter tokenPattern text).reverse.foldl
          (fun l m => (l.restoreExact scope m.text now).2) engine.ledger := by
    intro engine
    obtain ⟨ps, last, _, _, _, hrestore⟩ := @exists_candidates R text
    exact restoreMatches_ledger (@hrestore scope now engine)
  have hfold : ∀ (ms : List Match) (l l' : TokenLedger R), Renamed φ scope now l l' →
      Renamed φ scope now (ms.foldl (fun l m => (l.restoreExact scope m.text now).2) l)
        (ms.foldl (fun l m => (l.restoreExact scope m.text now).2) l') := by
    intro ms
    induction ms with
    | nil => exact fun _ _ h => h
    | cons m ms ih => exact fun l l' h => ih _ _ (h.restoreExact scope m.text)
  rw [hledger engine, hledger engine']
  exact hfold _ _ _ renamed

/-! ## Runs -/

/-- What a call sends upstream. -/
def sent (u : Unicode) (serde : SerdeJson) (engine : PrivacyEngine R) :
    EngineCall → Option (List UInt8)
  | .protect body scope now => (protect u serde engine body scope now).1.toOption.bind (·.body)
  | .restoreDisplayText _ _ _ => none
  | .clearScope _ => none
  | .ledgerEntryCount _ => none

/-- What the calls of a run send upstream, call by call. -/
def transcript (u : Unicode) (serde : SerdeJson) :
    PrivacyEngine R → List EngineCall → List (Option (List UInt8))
  | _, [] => []
  | engine, call :: calls =>
      sent u serde engine call :: transcript u serde (step u serde engine call) calls

/-- Two runs of the calls of a session, each at the same time in both. The requests differ in protected
values only, or neither is one; the texts that are restored are the same. -/
inductive Paired (u : Unicode) (serde : SerdeJson) (φ : DataClass → Str → Str) (scope : SessionScope) :
    Nat → PrivacyEngine R → PrivacyEngine R → List EngineCall → List EngineCall → Prop where
  | nil {now : Nat} {engine engine' : PrivacyEngine R} : Paired u serde φ scope now engine engine' [] []
  | protect {now later : Nat} {engine engine' : PrivacyEngine R} {body body' : List UInt8}
      {request request' : ValidatedRequest} {f : Path → Str → Str} {o o' : ProtectionOutcome}
      {calls calls' : List EngineCall} (le : now ≤ later)
      (parsed : ValidatedRequest.parse serde body = .ok request)
      (parsed' : ValidatedRequest.parse serde body' = .ok request')
      (differs : DiffersInProtected u engine scope later φ f request.value request'.value)
      (answered : (protect u serde engine body scope later).1 = .ok o)
      (answered' : (protect u serde engine' body' scope later).1 = .ok o')
      (rest : Paired u serde φ scope later (step u serde engine (.protect body scope later))
        (step u serde engine' (.protect body' scope later)) calls calls') :
      Paired u serde φ scope now engine engine' (.protect body scope later :: calls)
        (.protect body' scope later :: calls')
  | malformed {now later : Nat} {engine engine' : PrivacyEngine R} {body body' : List UInt8}
      {e e' : PayloadError} {calls calls' : List EngineCall}
      (no : ValidatedRequest.parse serde body = .error e)
      (no' : ValidatedRequest.parse serde body' = .error e')
      (rest : Paired u serde φ scope now engine engine' calls calls') :
      Paired u serde φ scope now engine engine' (.protect body scope later :: calls)
        (.protect body' scope later :: calls')
  | restoreDisplayText {now later : Nat} {engine engine' : PrivacyEngine R} {text : Str}
      {calls calls' : List EngineCall} (le : now ≤ later)
      (rest : Paired u serde φ scope later (step u serde engine (.restoreDisplayText scope text later))
        (step u serde engine' (.restoreDisplayText scope text later)) calls calls') :
      Paired u serde φ scope now engine engine' (.restoreDisplayText scope text later :: calls)
        (.restoreDisplayText scope text later :: calls')
  | clearScope {now : Nat} {engine engine' : PrivacyEngine R} {calls calls' : List EngineCall}
      (rest : Paired u serde φ scope now (step u serde engine (.clearScope scope))
        (step u serde engine' (.clearScope scope)) calls calls') :
      Paired u serde φ scope now engine engine' (.clearScope scope :: calls)
        (.clearScope scope :: calls')
  | ledgerEntryCount {now later : Nat} {engine engine' : PrivacyEngine R}
      {calls calls' : List EngineCall} (le : now ≤ later)
      (rest : Paired u serde φ scope later (step u serde engine (.ledgerEntryCount later))
        (step u serde engine' (.ledgerEntryCount later)) calls calls') :
      Paired u serde φ scope now engine engine' (.ledgerEntryCount later :: calls)
        (.ledgerEntryCount later :: calls')

variable {calls calls' : List EngineCall}

/-- A body that is no request changes nothing and sends nothing. -/
theorem protect_malformed (u : Unicode) (engine : PrivacyEngine R) (scope : SessionScope) (now : Nat)
    {e : PayloadError} (no : ValidatedRequest.parse serde body = .error e) :
    sent u serde engine (.protect body scope now) = none ∧
      step u serde engine (.protect body scope now) = engine := by
  have hfails : ∃ e, protect u serde engine body scope now = (.error e, engine) := by
    unfold protect
    split
    · exact ⟨_, rfl⟩
    · rw [no]
      exact ⟨_, rfl⟩
  obtain ⟨_, hprotect⟩ := hfails
  rw [sent, step, hprotect]
  exact ⟨rfl, rfl⟩

/-- Paired runs over ledgers that correspond have one transcript. -/
theorem Paired.transcript_eq (hφ : ∀ c, Function.Injective (φ c))
    (paired : Paired u serde φ scope now engine engine' calls calls')
    (renamed : Renamed φ scope now engine.ledger engine'.ledger)
    (hpolicy : engine'.policy = engine.policy) :
    transcript u serde engine' calls' = transcript u serde engine calls := by
  induction paired with
  | nil => rfl
  | @protect _ later engine engine' body body' _ _ _ o o' _ _ le parsed parsed' differs answered answered'
      _ ih =>
      obtain ⟨hbody, hledger⟩ := protect_renamed hφ (renamed.mono le) hpolicy parsed parsed' differs
        answered answered'
      have hsent : sent u serde engine' (.protect body' scope later)
          = sent u serde engine (.protect body scope later) := by
        rw [sent, sent, answered, answered']
        exact hbody
      have hrest := ih hledger (by rw [step_policy, step_policy, hpolicy])
      rw [transcript, transcript, hsent, hrest]
  | @malformed _ later engine engine' _ _ _ _ _ _ no no' _ ih =>
      obtain ⟨hsent, hstep⟩ := protect_malformed u engine scope later no
      obtain ⟨hsent', hstep'⟩ := protect_malformed u engine' scope later no'
      rw [transcript, transcript, hsent, hsent', hstep, hstep', ih renamed hpolicy]
  | restoreDisplayText le _ ih =>
      have hrest := ih (restoreDisplayText_renamed (renamed.mono le) _)
        (by rw [step_policy, step_policy, hpolicy])
      exact congrArg (none :: ·) hrest
  | clearScope _ ih =>
      have hrest := ih (renamed.clearScope scope) (by rw [step_policy, step_policy, hpolicy])
      exact congrArg (none :: ·) hrest
  | ledgerEntryCount le _ ih =>
      have hrest := ih (renamed.mono le).purgeExpired (by rw [step_policy, step_policy, hpolicy])
      exact congrArg (none :: ·) hrest

/-- Two sessions that differ in protected values only cannot be told apart by the upstream, however long
they run: call by call it gets the same bodies. The values correspond by a map that is injective on each
class and keeps those which the session has unexpired at the start. -/
theorem transcript_indistinguishable (hφ : ∀ c, Function.Injective (φ c))
    (hlive : ∀ t e, engine.ledger.entries.get t = some e → e.scope = scope → now < e.expiresAtMs →
      φ e.dataClass e.value = e.value)
    (paired : Paired u serde φ scope now engine engine calls calls') :
    transcript u serde engine calls' = transcript u serde engine calls :=
  paired.transcript_eq hφ (renamed_self hlive) rfl

/-- A request with an address, its token shown to the client, a body that is no request, and the end of
the session. -/
def demoCalls (address : Str) : List EngineCall :=
  [.protect (demoBody address) demoScope 0, .restoreDisplayText demoScope demoToken 1,
    .protect [] demoScope 1, .clearScope demoScope, .ledgerEntryCount 2]

theorem transcript_indistinguishable_demo :
    transcript Unicode.ascii pairSerde demoEngine (demoCalls "c@dd.eu".toList)
      = transcript Unicode.ascii pairSerde demoEngine (demoCalls "a@b.co".toList) := by
  have hforward : ∀ s ∈ ["a@b.co".toList, "c@dd.eu".toList],
      (demoEngine.protect Unicode.ascii pairSerde (demoBody s) demoScope 0).1
        = .ok (.forward ⟨demoBody demoToken, .rewritten,
            ⟨9, [⟨.email, .email, .high, .tokenize, .messageText, 1⟩]⟩⟩) := by
    decide +kernel
  have hvalue : ∀ s ∈ ["a@b.co".toList, "c@dd.eu".toList],
      (ValidatedRequest.parse pairSerde (demoBody s)).toOption.map (·.value) = some (demoValue s) := by
    decide
  have hparse : ∀ s ∈ ["a@b.co".toList, "c@dd.eu".toList], ∃ request,
      ValidatedRequest.parse pairSerde (demoBody s) = .ok request ∧ request.value = demoValue s := by
    intro s hs
    have hvalue := hvalue s hs
    cases h : ValidatedRequest.parse pairSerde (demoBody s) with
    | error e =>
        rw [h] at hvalue
        cases hvalue
    | ok request =>
        rw [h] at hvalue
        exact ⟨request, rfl, Option.some.inj hvalue⟩
  obtain ⟨request, hrequest, hv⟩ := hparse "a@b.co".toList (by simp)
  obtain ⟨request', hrequest', hv'⟩ := hparse "c@dd.eu".toList (by simp)
  have hempty : ValidatedRequest.parse pairSerde [] = .error .json := rfl
  have paired : Paired Unicode.ascii pairSerde exchanged demoScope 0 demoEngine demoEngine
      (demoCalls "a@b.co".toList) (demoCalls "c@dd.eu".toList) :=
    .protect (Nat.le_refl 0) hrequest hrequest' (hv ▸ hv' ▸ demo_differs)
      (hforward "a@b.co".toList (by simp)) (hforward "c@dd.eu".toList (by simp))
      (.restoreDisplayText (Nat.zero_le 1) (.malformed hempty hempty
        (.clearScope (.ledgerEntryCount (Nat.le_succ 1) .nil))))
  refine transcript_indistinguishable (fun _ => (Equiv.swap _ _).injective) (fun t e h => ?_) paired
  rw [demoEngine, demoLedger, HashMap.get_clear] at h
  cases h

end PrivacyEngine

end AgentVeil
