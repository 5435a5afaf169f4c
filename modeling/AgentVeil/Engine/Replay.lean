import AgentVeil.Engine.Liveness
import AgentVeil.Engine.Runs
import AgentVeil.Payload.Lemmas.Rewritten

/-!
# Replaying a forwarded body

A forwarded body is a request again, with the same targets. It is forwarded as it is exactly when its
texts have only allowed findings; the tokens in it are never what stops it.
-/

namespace AgentVeil

open Rust
open Rust.Value (mapStrings)

namespace PrivacyEngine

variable {R : Type} [RandomSource R] {u : Unicode} {serde : SerdeJson} {engine : PrivacyEngine R}
  {body : List UInt8} {scope : SessionScope} {now : Nat} {request : ValidatedRequest}
  {plans : List TargetPlan} {ledger : TokenLedger R}

/-! ## Allowed findings -/

theorem rewriteFindings_allowed (policy : ValidatedPolicy) (original : Str) (st : Rewriting R)
    {fs : List (Finding × Action)} (allowed : ∀ f ∈ fs, f.2 = .allow) (rewritten : Str) :
    rewriteFindings policy scope now original fs rewritten st = (.ok rewritten, st) := by
  induction fs with
  | nil => rfl
  | cons f fs ih =>
      obtain ⟨hf, hfs⟩ := List.forall_mem_cons.mp allowed
      rw [rewriteFindings, rewriteFinding, if_pos hf]
      exact ih hfs

/-- Plans with allowed findings only rewrite nothing. -/
theorem applyRewrites_allowed (policy : ValidatedPolicy) (scope : SessionScope) (now : Nat)
    (st : Rewriting R) (allowed : ∀ plan ∈ plans, ∀ f ∈ plan.findings, f.2 = .allow) :
    ∃ us, applyRewrites policy scope now plans st = (.ok us, st) := by
  induction plans with
  | nil => exact ⟨[], rfl⟩
  | cons plan plans ih =>
      obtain ⟨hplan, hplans⟩ := List.forall_mem_cons.mp allowed
      obtain ⟨us, hrest⟩ := ih hplans
      have hone : rewritePlan policy scope now plan st = (.ok (), st) := by
        rw [rewritePlan, rewriteFindings_allowed policy _ st fun f hf => hplan f (mem_sortBy.mp hf)]
        simp
      refine ⟨() :: us, ?_⟩
      rw [applyRewrites] at hrest ⊢
      simp only [loop, hone, hrest]

omit [RandomSource R] in
/-- The findings of the plans are allowed exactly when those of the scans are. -/
theorem Judged.allowed_iff (judged : Judged u serde engine body scope now request plans ledger) :
    (∀ plan ∈ plans, ∀ f ∈ plan.findings, f.2 = .allow) ↔
      ∀ target ∈ request.targets, ∀ text found, request.text target = .ok text →
        engine.scanner.scan u text = .ok found → ∀ f ∈ found,
          effectiveAction engine.policy engine.ledger scope now target.mode text f = .allow := by
  obtain ⟨hplan, htarget⟩ := exists_of_forall₂ judged.planned
  constructor
  · intro hall target ht text found htext hs f hf
    obtain ⟨i, hi⟩ := List.mem_iff_getElem?.mp ht
    obtain ⟨plan, hp, hplanned⟩ := hplan (target, i) (List.mk_mem_zipIdx_iff_getElem?.mpr hi)
    obtain rfl : plan.original = text := Except.ok.inj (hplanned.text.symm.trans htext)
    obtain ⟨found', hs', hres⟩ := hplanned.resolves
    obtain rfl : found' = found := Except.ok.inj (hs'.symm.trans hs)
    obtain ⟨g, hg, hc⟩ := hres.covers _ (List.mem_map.mpr ⟨f, hf, rfl⟩)
    have hle := hc.action
    rw [hall plan hp g hg] at hle
    simp only at hle
    generalize effectiveAction engine.policy engine.ledger scope now target.mode plan.original f = a
      at hle ⊢
    cases a with
    | allow => rfl
    | _ => exact absurd hle (by decide)
  · intro hall plan hp g hg
    obtain ⟨target, ht, hplanned⟩ := htarget plan hp
    obtain ⟨found, hs, hres⟩ := hplanned.resolves
    obtain ⟨_, hmem, hw⟩ := hres.origin g hg
    obtain ⟨f, hf, rfl⟩ := List.mem_map.mp hmem
    rw [hw.action]
    exact hall target.1 (List.fst_mem_of_mem_zipIdx ht) _ found hplanned.text hs f hf

/-- A request with allowed findings only is forwarded as it is written. -/
theorem Judged.forwarded (judged : Judged u serde engine body scope now request plans ledger)
    (allowed : ∀ plan ∈ plans, ∀ f ∈ plan.findings, f.2 = .allow) {output : List UInt8}
    (written : serde.toVec request.value = some output) :
    (protect u serde engine body scope now).1
      = .ok (.forward ⟨output, .allowed, summarize plans⟩) := by
  have hblocks : (summarize plans).blocks = false := by
    rw [Bool.eq_false_iff, ne_eq, blocks_summarize]
    rintro ⟨plan, hp, f, hf, hb⟩
    rw [allowed plan hp f hf] at hb
    cases hb
  have hdecision : (summarize plans).decision = .allowed := by
    cases hd : (summarize plans).decision with
    | allowed => rfl
    | rewritten =>
        obtain ⟨plan, hp, f, hf, ha⟩ := decision_summarize.mp hd
        rw [allowed plan hp f hf] at ha
        rcases ha with ha | ha
        · cases ha
        · cases ha
  obtain ⟨us, hrewrites⟩ := applyRewrites_allowed engine.policy scope now
    ⟨request, ledger, []⟩ allowed
  have hserialize : request.serialize serde = .ok output := by
    rw [ValidatedRequest.serialize, written]
    rfl
  unfold protect
  rw [if_neg (Nat.not_lt.mpr judged.size), judged.parsed]
  simp only [judged.plan, hblocks, Bool.false_eq_true, if_false]
  rw [forward, hrewrites]
  simp only [hserialize, hdecision]

omit [RandomSource R] in
theorem exists_judged (scope : SessionScope) (now : Nat)
    (size : body.length ≤ engine.policy.defaults.maxRequestBytes)
    (parsed : ValidatedRequest.parse serde body = .ok request)
    (scans : ∀ target ∈ request.targets, TargetScans u engine.policy request target) :
    ∃ plans ledger, Judged u serde engine body scope now request plans ledger := by
  have hplan := outcome_plan u engine request scope now
  generalize hr : engine.plan u request scope now = r at hplan
  obtain ⟨e | plans, ledger⟩ := r
  · obtain ⟨_, target, ht, hno⟩ := hplan
    exact absurd (scans target ht) hno
  · exact ⟨plans, ledger, size, parsed, hr, hplan.1, hplan.2⟩

/-- A request is forwarded as it is written exactly when it is not too long and its texts have only
allowed findings. -/
theorem protect_unchanged_iff (parsed : ValidatedRequest.parse serde body = .ok request)
    (written : serde.toVec request.value = some body) :
    (∃ summary, (protect u serde engine body scope now).1
        = .ok (.forward ⟨body, .allowed, summary⟩)) ↔
      body.length ≤ engine.policy.defaults.maxRequestBytes ∧
      ∀ target ∈ request.targets, ∃ text found, request.text target = .ok text ∧
        engine.scanner.scan u text = .ok found ∧ ∀ f ∈ found,
          effectiveAction engine.policy engine.ledger scope now target.mode text f = .allow := by
  constructor
  · rintro ⟨summary, h⟩
    have hp := protect_protected u serde engine body scope now
    rw [h] at hp
    generalize (protect u serde engine body scope now).2.ledger = ledger' at hp
    generalize hdecision : ForwardDecision.allowed = decision at hp
    generalize hr : ProtectionOutcome.forward ⟨body, decision, summary⟩ = outcome at hp
    cases hp with
    | blocked => cases hr
    | @forwarded request' plans ledger _ is g output judged blocks =>
        obtain rfl := Except.ok.inj (parsed.symm.trans judged.parsed)
        have hplans : decision = (summarize plans).decision := by
          cases hr
          rfl
        have hall : ∀ plan ∈ plans, ∀ f ∈ plan.findings, f.2 = .allow := by
          intro plan hp f hf
          have hrewritten : f.2 = .mask ∨ f.2 = .tokenize → False := by
            intro ha
            rw [decision_summarize.mpr ⟨plan, hp, f, hf, ha⟩, ← hdecision] at hplans
            cases hplans
          cases ha : f.2 with
          | allow => rfl
          | mask => exact absurd (.inl ha) hrewritten
          | tokenize => exact absurd (.inr ha) hrewritten
          | block =>
              exact absurd ((blocks_plans judged.planned).mp
                (blocks_summarize.mpr ⟨plan, hp, f, hf, ha⟩)) blocks
        refine ⟨judged.size, ?_⟩
        intro target ht
        obtain ⟨text, found, htext, hs⟩ := judged.scans target ht
        exact ⟨text, found, htext, hs, judged.allowed_iff.mp hall target ht text found htext hs⟩
  · rintro ⟨size, hall⟩
    have hscans : ∀ target ∈ request.targets, TargetScans u engine.policy request target := by
      intro target ht
      obtain ⟨text, found, htext, hs, _⟩ := hall target ht
      exact ⟨text, found, htext, hs⟩
    obtain ⟨plans, ledger, judged⟩ := exists_judged scope now size parsed hscans
    refine ⟨summarize plans, judged.forwarded (judged.allowed_iff.mpr ?_) written⟩
    intro target ht text found htext hs f hf
    obtain ⟨text', found', htext', hs', hallowed⟩ := hall target ht
    obtain rfl := Except.ok.inj (htext.symm.trans htext')
    obtain rfl := Except.ok.inj (hs.symm.trans hs')
    exact hallowed f hf

/-! ## Replay -/

/-- The finding is a token in the text. -/
def TokenAt (text : Str) (f : Finding) : Prop :=
  f.dataClass = .tokenNamespace ∧ ∃ p t q, text = p ++ t ++ q ∧ IsCandidate t ∧
    f.sourceSpan = ⟨len p, len p + len t⟩

omit [RandomSource R] in
/-- Where every candidate of a text is owned, what is allowed is a token of the text or of a class that
the policy allows. -/
theorem effectiveAction_allow_iff {policy : ValidatedPolicy} {mode : RewriteMode} {text : Str}
    {f : Finding} (genuine : ledger.Genuine now)
    (owned : ∀ p t q, text = p ++ t ++ q → IsCandidate t → (ledger.ownsToken scope t now).1 = true) :
    effectiveAction policy ledger scope now mode text f = .allow ↔
      TokenAt text f ∨ (policy.ruleFor f.dataClass).action = .allow := by
  unfold effectiveAction
  by_cases howns : f.dataClass = .tokenNamespace ∧ ownsFinding ledger scope now text f = true
  · rw [if_pos howns]
    obtain ⟨hclass, howns⟩ := howns
    obtain ⟨t, hget, howned⟩ := (Option.any_eq_true _ _).mp howns
    obtain ⟨p, q, htext, hstart, hstop⟩ := get?_eq_some_iff.mp hget
    obtain ⟨e, he, _, hx⟩ := ownsToken_eq_true.mp howned
    obtain ⟨htoken, hhard⟩ := genuine t e he hx
    have hspan : f.sourceSpan = ⟨len p, len p + len t⟩ := by
      rw [hstart, hstop]
    exact iff_of_true rfl (.inl ⟨hclass, p, t, q, htext, fun b a => htoken.derives hhard b a, hspan⟩)
  · rw [if_neg howns]
    constructor
    · intro h
      unfold escalate at h
      split at h
      · cases h
      · exact .inr h
    · rintro (⟨hclass, p, t, q, htext, hc, hspan⟩ | hrule)
      · refine absurd ⟨hclass, ?_⟩ howns
        have hget : get? text f.sourceSpan = some t := by
          rw [hspan]
          exact get?_eq_some_iff.mpr ⟨p, q, htext, rfl, rfl⟩
        rw [ownsFinding, hget]
        exact owned p t q htext hc
      · rw [hrule]
        exact escalate_allow mode

/-- The text of a target is a key or a string of the request. -/
theorem mem_of_text (htracks : request.Tracks) {target : TextTarget} (ht : target ∈ request.targets)
    {s : Str} (htext : request.text target = .ok s) :
    s ∈ request.value.keys ∨ ∃ q, (q, s) ∈ request.value.leaves := by
  cases hliteral : target.literal with
  | some k =>
      left
      rw [ValidatedRequest.text, hliteral] at htext
      cases htext
      exact htracks.literals.mem_iff.mp (List.mem_filterMap.mpr ⟨target, ht, hliteral⟩)
  | none =>
      right
      obtain ⟨s', hs', htext'⟩ := htracks.text_leaf (List.mem_filter.mpr ⟨ht, by simp [hliteral]⟩)
      obtain rfl := Except.ok.inj (htext.symm.trans htext')
      exact ⟨target.path, hs'⟩

/-- A forwarded body whose numbers survive being written is a request again, with the same targets. When
the ledger keeps the tokens of the request, the body is forwarded again as it is, with nothing to rewrite,
exactly when it is not too long and its texts have no findings other than its tokens and what the policy
allows. -/
theorem protect_replay {map : HashMap Token Entry} {maxEntries n : Nat} {random : R}
    {start : TokenLedger R} (new : TokenLedger.withRandom map maxEntries random = .ok start)
    (run : Reaches start n engine.ledger) (hparse : ValidatedRequest.parse serde body = .ok request)
    (keeps : serde.Keeps request.value) (tokens : KeepsTokens u engine request scope now)
    {r : ForwardRequest} (h : (protect u serde engine body scope now).1 = .ok (.forward r)) :
    ∃ replay, ValidatedRequest.parse serde r.body = .ok replay ∧ replay.targets = request.targets ∧
      ((∃ summary, (protect u serde (protect u serde engine body scope now).2 r.body scope now).1
          = .ok (.forward ⟨r.body, .allowed, summary⟩)) ↔
        r.body.length ≤ engine.policy.defaults.maxRequestBytes ∧
        ∀ target ∈ replay.targets, ∃ text found, replay.text target = .ok text ∧
          engine.scanner.scan u text = .ok found ∧
          ∀ f ∈ found, TokenAt text f ∨ (engine.policy.ruleFor f.dataClass).action = .allow) := by
  obtain ⟨g, hforwarded⟩ := exists_forwarded new run hparse tokens h
  have hpolicy := protect_policy u serde engine body scope now
  generalize (protect u serde engine body scope now).2 = engine' at hforwarded hpolicy ⊢
  obtain ⟨policy', ledger'⟩ := engine'
  obtain rfl : policy' = engine.policy := hpolicy
  have hvalue : ValidatedRequest.ofValue request.value = .ok request := by
    rw [ValidatedRequest.parse, bind_ok_iff] at hparse
    obtain ⟨value, _, hvalue⟩ := hparse
    rwa [ofValue_value hvalue]
  have hreplay : ValidatedRequest.parse serde r.body
      = .ok { request with value := mapStrings g request.value } := by
    rw [ValidatedRequest.parse, hforwarded.read, ← SerdeJson.mapStrings_reparse, keeps]
    exact ofValue_rewritten hvalue hforwarded.kept
  refine ⟨_, hreplay, rfl, ?_⟩
  obtain ⟨htracks, _⟩ := parse_tracks hreplay
  rw [protect_unchanged_iff hreplay hforwarded.written]
  refine and_congr_right fun _ => forall₂_congr fun target ht => ?_
  refine exists_congr fun text => exists_congr fun found => ?_
  refine and_congr_right fun htext => and_congr_right fun hs => forall₂_congr fun f hf => ?_
  exact effectiveAction_allow_iff hforwarded.genuine (hforwarded.owned text (mem_of_text htracks ht htext))

/-! ## A replay that is blocked -/

def labelledMail : Str := "SECRET: a@b.co".toList
def labelledToken : Str := "SECRET: ".toList ++ demoToken

/-- A request with an address behind a label and what it is forwarded as. -/
def labelledSerde : SerdeJson :=
  .ofTable [(demoBody labelledMail, demoValue labelledMail),
    (demoBody labelledToken, demoValue labelledToken)] (by decide +kernel)

def toolBody (digits : String) : List UInt8 :=
  bytes ("\x7b\"input\":\"hi\",\"model\":\"m\",".toList ++ "\"parallel_tool_calls\":true,".toList ++
    "\"store\":false,\"stream\":true,".toList ++ "\"tool_choice\":\"auto\",\"tools\":".toList ++
    "[\x7b\"minimum\":".toList ++ digits.toList ++ "\x7d]\x7d".toList)

def toolValue (bits : UInt64) : Value :=
  .object [("input".toList, .string "hi".toList), ("model".toList, .string "m".toList),
    ("parallel_tool_calls".toList, .bool true), ("store".toList, .bool false),
    ("stream".toList, .bool true), ("tool_choice".toList, .string "auto".toList),
    ("tools".toList, .array [.object [("minimum".toList, .number (.float bits))]])]

/-- A request with a float in the schema of a tool. The digits it is written with are read as the float
next to it. -/
def toolSerde : SerdeJson :=
  .ofTables [(toolBody "-0.9676380963621542", toolValue demoFloat),
      (toolBody "-0.9676380963621543", toolValue (demoFloat + 1)),
      (toolBody "-0.9676380963621544", toolValue (demoFloat + 1))]
    [(toolBody "-0.9676380963621543", toolValue demoFloat),
      (toolBody "-0.9676380963621544", toolValue (demoFloat + 1))]
    demoReread finite_demoReread (by decide +kernel)

/-- The address is too short for a secret, but its token is long enough for one; and a float is written
with other digits the second time. -/
theorem protect_replay_blocked :
    (∃ (r : ForwardRequest) (summary : ProtectionSummary),
      (demoEngine.protect Unicode.ascii labelledSerde (demoBody labelledMail) demoScope 0).1
          = .ok (.forward r) ∧
        ((demoEngine.protect Unicode.ascii labelledSerde (demoBody labelledMail) demoScope 0).2.protect
          Unicode.ascii labelledSerde r.body demoScope 0).1 = .ok (.blocked summary)) ∧
    ∃ r r' : ForwardRequest,
      (demoEngine.protect Unicode.ascii toolSerde (toolBody "-0.9676380963621542") demoScope 0).1
          = .ok (.forward r) ∧
        ((demoEngine.protect Unicode.ascii toolSerde (toolBody "-0.9676380963621542") demoScope
          0).2.protect Unicode.ascii toolSerde r.body demoScope 0).1 = .ok (.forward r') ∧
        r'.body ≠ r.body := by
  constructor
  · refine ⟨⟨demoBody labelledToken, .rewritten,
        ⟨9, [⟨.email, .email, .high, .tokenize, .messageText, 1⟩]⟩⟩,
      ⟨9, [⟨.envCredentialAssignment, .credentials, .contextual, .block, .messageText, 1⟩]⟩, ?_⟩
    decide +kernel
  · refine ⟨⟨toolBody "-0.9676380963621543", .allowed, ⟨11, []⟩⟩,
      ⟨toolBody "-0.9676380963621544", .allowed, ⟨11, []⟩⟩, ?_⟩
    decide +kernel

/-- A token alone is replayed. -/
theorem protect_replay_demo : ∃ replay, ValidatedRequest.parse mailSerde (demoBody demoToken) = .ok replay ∧
    ∀ target ∈ replay.targets, ∃ text found, replay.text target = .ok text ∧
      demoEngine.scanner.scan Unicode.ascii text = .ok found ∧
      ∀ f ∈ found, TokenAt text f ∨ (demoEngine.policy.ruleFor f.dataClass).action = .allow := by
  have new : TokenLedger.withRandom HashMap.empty 1 (⟨0⟩ : CounterRandom) = .ok demoLedger := rfl
  have run : Reaches demoLedger 0 demoEngine.ledger := .start
  obtain ⟨request, hparse, _⟩ := forward_judged protect_demo
  obtain ⟨replay, hreplay, _, hiff⟩ := protect_replay new run hparse (Value.mapFloats_self _)
    (.inl (hasRoom_demo hparse)) protect_demo
  have hforwarded : (protect Unicode.ascii mailSerde (protect Unicode.ascii mailSerde demoEngine
      (demoBody "a@b.co".toList) demoScope 0).2 (demoBody demoToken) demoScope 0).1
        = .ok (.forward ⟨demoBody demoToken, .allowed,
          ⟨9, [⟨.agentVeilTokenNamespace, .tokenNamespace, .high, .allow, .messageText, 1⟩]⟩⟩) := by
    decide +kernel
  exact ⟨replay, hreplay, (hiff.mp ⟨_, hforwarded⟩).2⟩

end PrivacyEngine

end AgentVeil
