import AgentVeil.Engine.Lemmas.Issues
import AgentVeil.Payload.Lemmas.Replay

/-!
# Theorems about the engine
-/

namespace AgentVeil

open Rust
open Rust.Value (mapStrings)

namespace PrivacyEngine

variable {R : Type} [RandomSource R] {u : Unicode} {serde : SerdeJson} {engine : PrivacyEngine R}
  {body : List UInt8} {scope : SessionScope} {now : Nat}

/-! ## A demonstration -/

def demoRule (c : DataClass) : CategoryRule :=
  if c = .email then ⟨.tokenize, true, some 300⟩ else ⟨.block, false, none⟩

def demoPolicy : ValidatedPolicy :=
  ⟨⟨1, "demo".toList, ⟨.block, false, 1048576, 1⟩,
    allDataClasses.map fun c => (c.policyKey, demoRule c), ⟨[], [], []⟩⟩, by decide⟩

def demoEngine : PrivacyEngine CounterRandom := ⟨demoPolicy, demoLedger⟩

def demoToken : Token :=
  tokenText .email ((List.ofFn fun _ : Fin tokenRandomBytes => (1 : UInt8)).flatMap hexByte)

/-- A request and what it is forwarded as. -/
def mailSerde : SerdeJson :=
  .ofTable [(demoBody "a@b.co".toList, demoValue "a@b.co".toList),
    (demoBody demoToken, demoValue demoToken)] (by decide)

/-- The call of the demonstration, which asks for one token. -/
theorem protect_mailSerde :
    (demoEngine.protect Unicode.ascii mailSerde (demoBody "a@b.co".toList) demoScope 0).1
        = .ok (.forward ⟨demoBody demoToken, .rewritten,
          ⟨9, [⟨.email, .email, .high, .tokenize, .messageText, 1⟩]⟩⟩) ∧
      (ValidatedRequest.parse mailSerde (demoBody "a@b.co".toList)).toOption.all (fun request =>
        (requestedValues Unicode.ascii demoEngine request demoScope 0).length ≤ 1) = true := by
  decide +kernel

theorem protect_demo :
    (demoEngine.protect Unicode.ascii mailSerde (demoBody "a@b.co".toList) demoScope 0).1
      = .ok (.forward ⟨demoBody demoToken, .rewritten,
          ⟨9, [⟨.email, .email, .high, .tokenize, .messageText, 1⟩]⟩⟩) :=
  protect_mailSerde.1

/-- The engine after the call of the demonstration. -/
def demoLater : PrivacyEngine CounterRandom :=
  (demoEngine.protect Unicode.ascii mailSerde (demoBody "a@b.co".toList) demoScope 0).2

/-- The ledger of the demonstration has room for its request. -/
theorem hasRoom_demo {request : ValidatedRequest}
    (hparse : ValidatedRequest.parse mailSerde (demoBody "a@b.co".toList) = .ok request) :
    demoEngine.ledger.HasRoom demoScope 0
      (requestedValues Unicode.ascii demoEngine request demoScope 0) := by
  have hone := protect_mailSerde.2
  rw [hparse] at hone
  have hlen := of_decide_eq_true hone
  have hcard := List.toFinset_card_le (requestedValues Unicode.ascii demoEngine request demoScope 0)
  have hmissing := Finset.card_filter_le (requestedValues Unicode.ascii demoEngine request demoScope
    0).toFinset fun k => (demoEngine.ledger.opened 0).findReusable demoScope k.1 k.2 0 = none
  have hlive : demoEngine.ledger.liveCount 0 = 0 := rfl
  have hmax : demoEngine.ledger.maxEntries = 1 := rfl
  unfold TokenLedger.HasRoom TokenLedger.missing
  omega

/-- What a forwarded call has been through. -/
theorem forward_judged {r : ForwardRequest}
    (h : (protect u serde engine body scope now).1 = .ok (.forward r)) :
    ∃ request, ValidatedRequest.parse serde body = .ok request ∧
      ¬FindsBlock u engine request scope now ∧
      ∀ target ∈ request.targets, TargetScans u engine.policy request target := by
  have hp := protect_protected u serde engine body scope now
  rw [h] at hp
  cases hp with
  | @forwarded request plans ledger _ is g output judged blocks =>
      exact ⟨request, judged.parsed, blocks, judged.scans⟩

/-! ## Redaction -/

omit [RandomSource R] in
/-- A redaction of a string leaves nothing of a finding that is masked or tokenized. -/
theorem copied_disjoint {policy : ValidatedPolicy} {ledger : TokenLedger R} {is : List Issue}
    {mode : RewriteMode} {s out : Str} {found : List Finding} {copied : List Span}
    (hs : (Scanner.new policy.detectors).scan u s = .ok found)
    (hred : Redacted is 0 s (resolveOverlaps (actions policy ledger scope now mode s found)) out
      copied) {f : Finding} (hf : f ∈ found)
    (ha : effectiveAction policy ledger scope now mode s f = .mask ∨
      effectiveAction policy ledger scope now mode s f = .tokenize) :
    ∀ c ∈ copied, c.stop ≤ f.sourceSpan.start ∨ f.sourceSpan.stop ≤ c.start := by
  have hres := resolves_actions u policy ledger scope now mode hs
  obtain ⟨g, hg, hc⟩ := hres.covers _ (List.mem_map.mpr ⟨f, hf, rfl⟩)
  have hne : g.2 ≠ .allow := by
    intro hg
    have hle := hc.action
    rw [hg] at hle
    rcases ha with ha | ha
    · simp only [ha] at hle; exact absurd hle (by decide)
    · simp only [ha] at hle; exact absurd hle (by decide)
  intro c hcopied
  rcases hred.disjoint g hg hne c hcopied with h | h
  · exact .inl (Nat.le_trans h hc.start)
  · exact .inr (Nat.le_trans hc.stop h)

/-- Exact redaction of every forwarded request. The forwarded tree is the accepted tree with some of
its strings replaced, and this is what is read for the body when the numbers survive it. A string that is not rewritten is as it was. A rewritten string is its text
with every resolved span that is not allowed replaced, by the mask of its class or by the token
issued for its text; nothing of a finding that is masked or tokenized is copied. -/
theorem protect_forward_redacted {r : ForwardRequest}
    (h : (protect u serde engine body scope now).1 = .ok (.forward r)) :
    ∃ request is g, (serde.fromSlice body).bind uniqueValue = some request.value ∧
      ValidatedRequest.parse serde body = .ok request ∧
      serde.toVec (mapStrings g request.value) = some r.body ∧
      (serde.fromSlice r.body).bind uniqueValue
        = some (serde.reparse (mapStrings g request.value)) ∧
      (serde.Keeps request.value →
        (serde.fromSlice r.body).bind uniqueValue = some (mapStrings g request.value)) ∧
      (∃ l, SameLive now engine.ledger l ∧
        Issues engine.policy scope now l is (protect u serde engine body scope now).2.ledger) ∧
      ∀ q s, (q, s) ∈ request.value.leaves →
        (¬RewriteLeaf request.value q → g q s = s) ∧
        (RewriteLeaf request.value q → ∃ found copied,
          engine.scanner.scan u s = .ok found ∧
          Redacted is 0 s (resolveOverlaps
            (actions engine.policy engine.ledger scope now .rewrite s found)) (g q s) copied ∧
          ∀ f ∈ found,
            (effectiveAction engine.policy engine.ledger scope now .rewrite s f = .mask ∨
              effectiveAction engine.policy engine.ledger scope now .rewrite s f = .tokenize) →
            ∀ c ∈ copied, c.stop ≤ f.sourceSpan.start ∨ f.sourceSpan.stop ≤ c.start) := by
  have hp := protect_protected u serde engine body scope now
  rw [h] at hp
  generalize (protect u serde engine body scope now).2.ledger = ledger' at hp
  cases hp with
  | @forwarded request plans ledger _ is g output judged blocks issues keys written redacted =>
      obtain ⟨htracks, hvalue⟩ := parse_tracks judged.parsed
      have hread := uniqueValue_written htracks.canonical.mapStrings written
      refine ⟨request, is, g, hvalue, judged.parsed, written, hread, fun keeps => ?_,
        ⟨ledger, judged.live, issues⟩, fun q s hq => ?_⟩
      · rw [hread, ← SerdeJson.mapStrings_reparse, keeps]
      · obtain ⟨t, ht, hpath⟩ := List.mem_map.mp (htracks.paths.mem_iff.mpr
          (List.mem_map.mpr ⟨(q, s), hq, rfl⟩))
        obtain rfl : t.path = q := hpath
        obtain ⟨found, copied, hs, hred⟩ := redacted t ht s hq
        have hmode := htracks.mode t ht
        refine ⟨fun hn => hred.eq_of_allowed fun g hg => ?_, fun hr => ?_⟩
        · -- the resolved findings of a target that is not rewritten are allowed
          obtain ⟨htmem, _⟩ := List.mem_filter.mp ht
          have hres := resolves_actions u engine.policy engine.ledger scope now t.mode hs
          obtain ⟨_, hmem, hw⟩ := hres.origin g hg
          obtain ⟨f, hf, rfl⟩ := List.mem_map.mp hmem
          rw [hw.action]
          have hblock : t.mode = .blockOnly := by
            cases hm : t.mode with
            | rewrite => exact absurd (hmode.mp hm) hn
            | blockOnly => rfl
          have htext : request.text t = .ok s := by
            obtain ⟨s', hs', htext⟩ := htracks.text_leaf ht
            have := (htracks.canonical.mem_leaves.mp hs').symm.trans
              (htracks.canonical.mem_leaves.mp hq)
            simp only [Option.some.injEq, Value.string.injEq] at this
            rw [htext, this]
          rw [hblock]
          rcases effectiveAction_blockOnly engine.policy engine.ledger scope now s f with hb | ha
          · exact absurd ⟨t, htmem, s, found, htext, hs, f, hf, hblock ▸ hb⟩ blocks
          · exact ha
        · rw [hmode.mpr hr] at hred
          exact ⟨found, copied, hs, hred, fun f hf ha => copied_disjoint hs hred hf ha⟩

theorem protect_forward_redacted_demo : ∃ request is g,
    ValidatedRequest.parse mailSerde (demoBody "a@b.co".toList) = .ok request ∧
      (mailSerde.fromSlice (demoBody demoToken)).bind uniqueValue
        = some (mapStrings g request.value) ∧
      ∃ l, SameLive 0 demoEngine.ledger l ∧ Issues demoEngine.policy demoScope 0 l is
        (demoEngine.protect Unicode.ascii mailSerde (demoBody "a@b.co".toList) demoScope 0).2.ledger := by
  obtain ⟨request, is, g, _, hparse, _, _, hbody, hledger, _⟩ := protect_forward_redacted protect_demo
  exact ⟨request, is, g, hparse, hbody (Value.mapFloats_self _), hledger⟩

/-! ## Blocking -/

theorem blocked_iff_findsBlock {request : ValidatedRequest}
    (hsize : body.length ≤ engine.policy.defaults.maxRequestBytes)
    (hparse : ValidatedRequest.parse serde body = .ok request)
    (hscan : ∀ target ∈ request.targets, TargetScans u engine.policy request target) :
    (∃ summary, (protect u serde engine body scope now).1 = .ok (.blocked summary)) ↔
      FindsBlock u engine request scope now := by
  have hp := protect_protected u serde engine body scope now
  generalize protect u serde engine body scope now = result at hp
  obtain ⟨outcome, engine'⟩ := result
  simp only at hp ⊢
  generalize engine'.ledger = ledger' at hp
  cases hp with
  | refused no =>
      rcases no with no | ⟨e, no⟩
      · exact absurd hsize (Nat.not_le.mpr no)
      · rw [hparse] at no; cases no
  | unplanned parsed _ no =>
      rw [hparse, Except.ok.injEq] at parsed
      subst parsed
      obtain ⟨target, ht, hn⟩ := no
      exact absurd (hscan target ht) hn
  | blocked judged blocks =>
      have := judged.parsed
      rw [hparse, Except.ok.injEq] at this
      subst this
      exact ⟨fun _ => blocks, fun _ => ⟨_, rfl⟩⟩
  | panicked judged blocks | rolledBack judged blocks | forwarded judged blocks =>
      have := judged.parsed
      rw [hparse, Except.ok.injEq] at this
      subst this
      exact ⟨nofun, fun h => absurd h blocks⟩

/-- Blocking is decided exactly and leaves the ledger alone. A request whose every target scans is
blocked exactly when some finding has the effective action `Block`; a blocked request changes nothing
unexpired and issues no token; and a finding of a hard-block class that is not a token of the scope is
never forwarded. -/
theorem protect_blocked_iff {request : ValidatedRequest}
    (hsize : body.length ≤ engine.policy.defaults.maxRequestBytes)
    (hparse : ValidatedRequest.parse serde body = .ok request)
    (hscan : ∀ target ∈ request.targets, TargetScans u engine.policy request target) :
    ((∃ summary, (protect u serde engine body scope now).1 = .ok (.blocked summary)) ↔
      FindsBlock u engine request scope now) ∧
    (∀ summary, (protect u serde engine body scope now).1 = .ok (.blocked summary) →
      SameLive now engine.ledger (protect u serde engine body scope now).2.ledger) ∧
    (∀ target ∈ request.targets, ∀ text found f, request.text target = .ok text →
      engine.scanner.scan u text = .ok found → f ∈ found → f.dataClass.hardBlock = true →
      ¬(f.dataClass = .tokenNamespace ∧ ownsFinding engine.ledger scope now text f = true) →
      ∀ r, (protect u serde engine body scope now).1 ≠ .ok (.forward r)) := by
  have hiff : (∃ summary, (protect u serde engine body scope now).1 = .ok (.blocked summary)) ↔
      FindsBlock u engine request scope now := blocked_iff_findsBlock hsize hparse hscan
  have hp := protect_protected u serde engine body scope now
  generalize protect u serde engine body scope now = result at hp hiff
  obtain ⟨outcome, engine'⟩ := result
  simp only at hp hiff ⊢
  generalize engine'.ledger = ledger' at hp
  refine ⟨hiff, ?_, ?_⟩
  · rintro summary rfl
    cases hp with
    | blocked judged _ => exact judged.live
  · rintro target ht text found f htext hs hf hhard hown r rfl
    have hblock : effectiveAction engine.policy engine.ledger scope now target.mode text f
        = .block := by
      rw [effectiveAction, if_neg hown, engine.policy.ruleFor_hardBlock hhard]
      simp [escalate]
    obtain ⟨_, h⟩ := hiff.mpr ⟨target, ht, text, found, htext, hs, f, hf, hblock⟩
    cases h

/-- A token that is of no session is blocked. -/
theorem protect_foreign :
    (demoEngine.protect Unicode.ascii mailSerde (demoBody demoToken) demoScope 0).1
      = .ok (.blocked ⟨9, [⟨.agentVeilTokenNamespace, .tokenNamespace, .high, .block, .messageText, 1⟩]⟩) := by
  decide +kernel

theorem protect_blocked_demo : ∃ request,
    ValidatedRequest.parse mailSerde (demoBody demoToken) = .ok request ∧
      FindsBlock Unicode.ascii demoEngine request demoScope 0 ∧
      SameLive 0 demoEngine.ledger
        (demoEngine.protect Unicode.ascii mailSerde (demoBody demoToken) demoScope 0).2.ledger ∧
      ∀ target ∈ request.targets, ∀ text found f, request.text target = .ok text →
        demoEngine.scanner.scan Unicode.ascii text = .ok found → f ∈ found →
        f.dataClass.hardBlock = true →
        ¬(f.dataClass = .tokenNamespace ∧ ownsFinding demoEngine.ledger demoScope 0 text f = true) →
        ∀ r, (demoEngine.protect Unicode.ascii mailSerde (demoBody demoToken) demoScope 0).1
          ≠ .ok (.forward r) := by
  have hp := protect_protected Unicode.ascii mailSerde demoEngine (demoBody demoToken) demoScope 0
  obtain ⟨summary, hblocked⟩ : ∃ summary, (demoEngine.protect Unicode.ascii mailSerde
    (demoBody demoToken) demoScope 0).1 = .ok (.blocked summary) := ⟨_, protect_foreign⟩
  rw [hblocked] at hp
  cases hp with
  | @blocked request plans _ judged _ =>
      obtain ⟨hiff, hsame, hhard⟩ := protect_blocked_iff (by decide +kernel) judged.parsed judged.scans
      exact ⟨request, judged.parsed, hiff.mp ⟨_, hblocked⟩, hsame _ hblocked, hhard⟩

/-! ## Failure -/

/-- A source of random bytes that is exhausted. -/
structure SpentRandom where

instance : RandomSource SpentRandom where
  fill r := (.error .randomUnavailable, r)

def otherScope : SessionScope := ⟨"scope_other_12345".toList, by decide⟩

def otherEntry : Entry := ⟨otherScope, .email, "c@d.eu".toList, 1000, 0⟩

/-- An engine whose ledger is full with the entry of another session. -/
def fullEngine : PrivacyEngine SpentRandom :=
  ⟨demoPolicy, ⟨HashMap.empty.insert demoToken otherEntry, 1, 0, ⟨⟩⟩⟩

theorem fullEngine_protect :
    (fullEngine.protect Unicode.ascii mailSerde (demoBody "a@b.co".toList) demoScope 0).1
        = err (.ledger .randomUnavailable) ∧
      (fullEngine.protect Unicode.ascii mailSerde (demoBody "a@b.co".toList) demoScope
        0).2.ledger.entries.get demoToken = none := by
  decide +kernel

/-- A request that fails for want of random bytes evicts the unexpired entry of another session. -/
theorem protect_err_evicts :
    (fullEngine.protect Unicode.ascii mailSerde (demoBody "a@b.co".toList) demoScope 0).1
        = err (.ledger .randomUnavailable) ∧
      fullEngine.ledger.entries.get demoToken = some otherEntry ∧ 0 < otherEntry.expiresAtMs ∧
      (fullEngine.protect Unicode.ascii mailSerde (demoBody "a@b.co".toList) demoScope
        0).2.ledger.entries.get demoToken = none :=
  ⟨fullEngine_protect.1, by decide +kernel, by decide, fullEngine_protect.2⟩

/-- A body asks for a token for a value of a class. -/
def Asks (u : Unicode) (serde : SerdeJson) (engine : PrivacyEngine R) (body : List UInt8)
    (scope : SessionScope) (now : Nat) (k : DataClass × Str) : Prop :=
  ∃ request, ValidatedRequest.parse serde body = .ok request ∧
    k ∈ requestedValues u engine request scope now

/-- A failed call creates nothing: every unexpired entry afterwards was there before, with the same
scope, class and value, and with its expiry unless it is of the scope and the request asked for its value
again. It loses nothing either, if the ledger has room for the values that have no token yet. A call that
fails before its rewrites changes nothing unexpired. -/
theorem protect_err_ledger {e : EngineError}
    (h : (protect u serde engine body scope now).1 = err e) :
    (∀ t x, (protect u serde engine body scope now).2.ledger.entries.get t = some x →
      now < x.expiresAtMs → ∃ x₀, engine.ledger.entries.get t = some x₀ ∧ now < x₀.expiresAtMs ∧
        Persists engine.policy scope now (Asks u serde engine body scope now) x₀ x) ∧
    ((∀ request, ValidatedRequest.parse serde body = .ok request →
        engine.ledger.HasRoom scope now (requestedValues u engine request scope now)) →
      ∀ t x₀, engine.ledger.entries.get t = some x₀ → now < x₀.expiresAtMs →
        ∃ x, (protect u serde engine body scope now).2.ledger.entries.get t = some x ∧
          now < x.expiresAtMs ∧
          Persists engine.policy scope now (Asks u serde engine body scope now) x₀ x) ∧
    (engine.policy.defaults.maxRequestBytes < body.length ∨
        (∀ request, ValidatedRequest.parse serde body = .ok request →
          ∃ target ∈ request.targets, ¬TargetScans u engine.policy request target) →
      SameLive now engine.ledger (protect u serde engine body scope now).2.ledger) := by
  have hp := protect_protected u serde engine body scope now
  rw [h] at hp
  generalize (protect u serde engine body scope now).2.ledger = ledger' at hp ⊢
  have same : SameLive now engine.ledger ledger' →
      (∀ t x, ledger'.entries.get t = some x → now < x.expiresAtMs →
        ∃ x₀, engine.ledger.entries.get t = some x₀ ∧ now < x₀.expiresAtMs ∧
          Persists engine.policy scope now (Asks u serde engine body scope now) x₀ x) ∧
      (∀ t x₀, engine.ledger.entries.get t = some x₀ → now < x₀.expiresAtMs →
        ∃ x, ledger'.entries.get t = some x ∧ now < x.expiresAtMs ∧
          Persists engine.policy scope now (Asks u serde engine body scope now) x₀ x) := fun hl =>
    ⟨fun t x hx hlive => ⟨x, (hl.entries t x hlive).mp hx, hlive, .refl x⟩,
      fun t x hx hlive => ⟨x, (hl.entries t x hlive).mpr hx, hlive, .refl x⟩⟩
  cases hp with
  | refused =>
      have hl := SameLive.refl now engine.ledger
      exact ⟨(same hl).1, fun _ => (same hl).2, fun _ => hl⟩
  | unplanned _ hl => exact ⟨(same hl).1, fun _ => (same hl).2, fun _ => hl⟩
  | @rolledBack _ request plans ledger st judged blocks stopped =>
      have hasks : ∀ k ∈ plans.flatMap TargetPlan.requested, Asks u serde engine body scope now k :=
        fun k hk => ⟨request, judged.parsed, judged.requestedValues ▸ hk⟩
      refine ⟨fun t x hx hlive => ?_, fun hroom t x₀ hx₀ hlive => ?_, fun hearly => ?_⟩
      · rw [TokenLedger.get_rollbackCreated] at hx
        -- an entry of the scope under a created token would have been rolled back
        have hget : st.ledger.entries.get t = some x ∧ ¬(t ∈ st.created ∧ x.scope = scope) := by
          split at hx
          · obtain ⟨hx, hs⟩ := Option.filter_eq_some_iff.mp hx
            exact ⟨hx, fun h => by simp [h.2] at hs⟩
          · rename_i hn
            exact ⟨hx, fun h => hn h.1⟩
        obtain ⟨x₀, hx₀, hlive₀, hpers⟩ := (stopped.origin rfl hget.1 hlive).resolve_left hget.2
        exact ⟨x₀, (judged.live.entries t x₀ hlive₀).mp hx₀, hlive₀, hpers.mono hasks⟩
      · have hroom := TokenLedger.hasRoom_of_sameLive judged.live
          (judged.requestedValues ▸ hroom request judged.parsed)
        obtain ⟨hnot, x, hx, hlive', hpers⟩ := stopped.keeps rfl hroom
          ((judged.live.entries t x₀ hlive).mpr hx₀) hlive
        exact ⟨x, by rw [TokenLedger.get_rollbackCreated, if_neg hnot]; exact hx, hlive',
          hpers.mono hasks⟩
      · rcases hearly with hsize | hscan
        · exact absurd judged.size (Nat.not_le.mpr hsize)
        · obtain ⟨target, ht, hn⟩ := hscan request judged.parsed
          exact absurd (judged.scans target ht) hn

/-- A source of random bytes for one token. -/
structure OneRandom where
  spent : Bool

instance : RandomSource OneRandom where
  fill r := if r.spent then (.error .randomUnavailable, r) else (.ok fun _ => 1, ⟨true⟩)

def threeMails : Str := "a@b.co c@d.co e@f.co".toList

def mailToken (b : UInt8) : Token :=
  tokenText .email ((List.ofFn fun _ : Fin tokenRandomBytes => b).flatMap hexByte)

/-- The last address has a token, which is renewed; the second one gets a token, which is rolled back
when there is none for the first. -/
def threeEngine : PrivacyEngine OneRandom :=
  ⟨demoPolicy, ⟨(HashMap.empty.insert (mailToken 2) otherEntry).insert (mailToken 3)
    ⟨demoScope, .email, "e@f.co".toList, 1000, 0⟩, 4, 0, ⟨false⟩⟩⟩

def threeSerde : SerdeJson :=
  .ofTable [(demoBody threeMails, demoValue threeMails)] (by simp)

theorem threeEngine_protect :
    (threeEngine.protect Unicode.ascii threeSerde (demoBody threeMails) demoScope 0).1
        = err (.ledger .randomUnavailable) ∧
      (threeEngine.protect Unicode.ascii threeSerde (demoBody threeMails) demoScope
        0).2.ledger.entries.get (mailToken 3) = some ⟨demoScope, .email, "e@f.co".toList, 300000, 1⟩ ∧
      (ValidatedRequest.parse threeSerde (demoBody threeMails)).toOption.all (fun request =>
        threeEngine.ledger.liveCount 0 + (threeEngine.ledger.missing demoScope 0
          (requestedValues Unicode.ascii threeEngine request demoScope 0)).card
            ≤ threeEngine.ledger.maxEntries) = true := by
  decide +kernel

theorem protect_err_demo :
    (∀ t x, (threeEngine.protect Unicode.ascii threeSerde (demoBody threeMails) demoScope
        0).2.ledger.entries.get t = some x → 0 < x.expiresAtMs →
      ∃ x₀, threeEngine.ledger.entries.get t = some x₀ ∧ 0 < x₀.expiresAtMs ∧ Persists demoPolicy demoScope 0
        (Asks Unicode.ascii threeSerde threeEngine (demoBody threeMails) demoScope 0) x₀ x) ∧
    (∀ t x₀, threeEngine.ledger.entries.get t = some x₀ → 0 < x₀.expiresAtMs →
      ∃ x, (threeEngine.protect Unicode.ascii threeSerde (demoBody threeMails) demoScope
          0).2.ledger.entries.get t = some x ∧ 0 < x.expiresAtMs ∧ Persists demoPolicy demoScope 0
        (Asks Unicode.ascii threeSerde threeEngine (demoBody threeMails) demoScope 0) x₀ x) ∧
    (threeEngine.protect Unicode.ascii threeSerde (demoBody threeMails) demoScope
      0).2.ledger.entries.get (mailToken 3) = some ⟨demoScope, .email, "e@f.co".toList, 300000, 1⟩ := by
  obtain ⟨hfailed, hrenewed, hroom⟩ := threeEngine_protect
  obtain ⟨horigin, hkeeps, _⟩ := protect_err_ledger hfailed
  refine ⟨horigin, hkeeps fun request hparse => ?_, hrenewed⟩
  -- four entries at most: the two there are, and those of the two values without a token
  rw [hparse] at hroom
  have hle := of_decide_eq_true hroom
  exact hle

end PrivacyEngine

end AgentVeil
