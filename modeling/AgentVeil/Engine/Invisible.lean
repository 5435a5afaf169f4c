import AgentVeil.Detector.Invisible
import AgentVeil.Engine.RoundTrip

/-!
# Requests with invisible characters

Invisible controls in the texts of a request do not get it past the policy. They only make a difference
where they break up a token of the scope, which then is a token no longer.
-/

namespace AgentVeil

open Rust

theorem visible_of_isAscii {s : Str} (h : ∀ c ∈ s, isAscii c = true) : visible s = s :=
  List.filter_eq_self.mpr fun c hc => by rw [ScanView.isInvisibleControl_of_isAscii (h c hc)]; rfl

namespace PrivacyEngine

variable {R : Type} {u : Unicode} {serde : SerdeJson} {engine : PrivacyEngine R}
  {body hiddenBody : List UInt8} {scope : SessionScope} {now : Nat} {request hidden : ValidatedRequest}

/-- The texts of the request are those of another one, some without their invisible controls. -/
structure Reveals (request hidden : ValidatedRequest) : Prop where
  targets : request.targets = hidden.targets
  texts : ∀ target ∈ hidden.targets, ∃ t, hidden.text target = .ok t ∧
    (request.text target = .ok t ∨ request.text target = .ok (visible t))

/-- A token of the scope in a text that has lost its invisible controls, where it had some inside. -/
def MendsToken (u : Unicode) (engine : PrivacyEngine R) (request hidden : ValidatedRequest)
    (scope : SessionScope) (nowMs : Nat) : Prop :=
  ∃ target ∈ hidden.targets, ∃ t found f, hidden.text target = .ok t ∧
    request.text target = .ok (visible t) ∧ engine.scanner.scan u (visible t) = .ok found ∧ f ∈ found ∧
    f.dataClass = .tokenNamespace ∧
    ownsFinding engine.ledger scope nowMs (visible t) f = true ∧
    ownsFinding engine.ledger scope nowMs t (f.relocate (visibleOffset t)) = false

/-- A token of the scope is one in the visible text too. -/
theorem ownsFinding_visible {ledger : TokenLedger R} (genuine : ledger.Genuine now) {t : Str}
    {f : Finding} (range : SourceRange (visible t) f.sourceSpan)
    (owns : ownsFinding ledger scope now t (f.relocate (visibleOffset t)) = true) :
    ownsFinding ledger scope now (visible t) f = true := by
  obtain ⟨w, hget, hvisible⟩ := get?_visible range
  have howned : (ledger.ownsToken scope w now).1 = true := by
    rw [ownsFinding, Finding.relocate, hget] at owns
    exact owns
  obtain ⟨e, he, _, hx⟩ := ownsToken_eq_true.mp howned
  obtain ⟨htoken, hhard⟩ := genuine w e he hx
  rw [visible_of_isAscii (token_cases (htoken.derives hhard [] [])).2.ascii] at hvisible
  rw [ownsFinding, hvisible]
  exact howned

/-- The action on a finding of the visible text, and on the same finding in the text. -/
theorem effectiveAction_visible {ledger : TokenLedger R} (genuine : ledger.Genuine now)
    {policy : ValidatedPolicy} {mode : RewriteMode} {t : Str} {f : Finding}
    (range : SourceRange (visible t) f.sourceSpan) :
    effectiveAction policy ledger scope now mode t (f.relocate (visibleOffset t)) = .block ↔
      effectiveAction policy ledger scope now mode (visible t) f = .block ∨
        (f.dataClass = .tokenNamespace ∧ ownsFinding ledger scope now (visible t) f = true ∧
          ownsFinding ledger scope now t (f.relocate (visibleOffset t)) = false) := by
  have hblock : escalate mode (policy.ruleFor .tokenNamespace).action = .block := by
    rw [policy.ruleFor_hardBlock rfl, escalate]
    split
    · rfl
    · rfl
  have hclass : (f.relocate (visibleOffset t)).dataClass = f.dataClass := rfl
  unfold effectiveAction
  rw [hclass]
  by_cases htoken : f.dataClass = .tokenNamespace
  · have hmono : ownsFinding ledger scope now t (f.relocate (visibleOffset t)) = true →
        ownsFinding ledger scope now (visible t) f = true := ownsFinding_visible genuine range
    simp only [htoken, true_and, hblock]
    cases hraw : ownsFinding ledger scope now t (f.relocate (visibleOffset t)) with
    | true => simp [hmono hraw]
    | false =>
        cases ownsFinding ledger scope now (visible t) f with
        | true => simp
        | false => simp
  · simp [htoken]

/-- A request is found to block exactly when the one without invisible controls is, or a token was
broken up. -/
theorem findsBlock_reveals (genuine : engine.ledger.Genuine now) (reveals : Reveals request hidden) :
    FindsBlock u engine hidden scope now ↔
      FindsBlock u engine request scope now ∨ MendsToken u engine request hidden scope now := by
  constructor
  · rintro ⟨target, ht, t, found, htext, hs, f, hf, hblock⟩
    obtain ⟨t', htext', hrevealed⟩ := reveals.texts target ht
    obtain rfl := Except.ok.inj (htext.symm.trans htext')
    rcases hrevealed with hsame | hvisible
    · exact .inl ⟨target, reveals.targets ▸ ht, t, found, hsame, hs, f, hf, hblock⟩
    rw [scan_visible, map_ok_iff] at hs
    obtain ⟨found, hs, rfl⟩ := hs
    obtain ⟨g, hg, rfl⟩ := List.mem_map.mp hf
    rcases (effectiveAction_visible genuine (scan_ranges u engine.policy hs g hg)).mp hblock with hblock | hmends
    · exact .inl ⟨target, reveals.targets ▸ ht, visible t, found, hvisible, hs, g, hg, hblock⟩
    · exact .inr ⟨target, ht, t, found, g, htext, hvisible, hs, hg, hmends⟩
  · rintro (⟨target, ht, text, found, htext, hs, f, hf, hblock⟩ |
      ⟨target, ht, t, found, f, htext, _, hs, hf, hmends⟩)
    · rw [reveals.targets] at ht
      obtain ⟨t, htext', hrevealed⟩ := reveals.texts target ht
      rcases hrevealed with hsame | hvisible
      · obtain rfl := Except.ok.inj (htext.symm.trans hsame)
        exact ⟨target, ht, text, found, htext', hs, f, hf, hblock⟩
      · obtain rfl := Except.ok.inj (htext.symm.trans hvisible)
        refine ⟨target, ht, t, _, htext', by rw [scan_visible, hs]; rfl, _,
          List.mem_map.mpr ⟨f, hf, rfl⟩, ?_⟩
        exact (effectiveAction_visible genuine (scan_ranges u engine.policy hs f hf)).mpr (.inl hblock)
    · refine ⟨target, ht, t, _, htext, by rw [scan_visible, hs]; rfl, _,
        List.mem_map.mpr ⟨f, hf, rfl⟩, ?_⟩
      exact (effectiveAction_visible genuine (scan_ranges u engine.policy hs f hf)).mpr (.inr hmends)

/-- Every target of the hidden request scans. -/
theorem Reveals.scans (reveals : Reveals request hidden)
    (scans : ∀ target ∈ request.targets, TargetScans u engine.policy request target) :
    ∀ target ∈ hidden.targets, TargetScans u engine.policy hidden target := by
  intro target ht
  obtain ⟨text, found, htext, hs⟩ := scans target (reveals.targets ▸ ht)
  obtain ⟨t, htext', hrevealed⟩ := reveals.texts target ht
  rcases hrevealed with hsame | hvisible
  · obtain rfl := Except.ok.inj (htext.symm.trans hsame)
    exact ⟨text, found, htext', hs⟩
  · obtain rfl := Except.ok.inj (htext.symm.trans hvisible)
    exact ⟨t, _, htext', by rw [scan_visible, hs]; rfl⟩

/-- Invisible controls do not get a request past the policy: it is blocked exactly when the request
without them is, or they break up a token of the scope. -/
theorem protect_invisible [RandomSource R] {map : HashMap Token Entry} {maxEntries n : Nat} {random : R}
    {start : TokenLedger R} (new : TokenLedger.withRandom map maxEntries random = .ok start)
    (run : Reaches start n engine.ledger)
    (size : body.length ≤ engine.policy.defaults.maxRequestBytes)
    (hiddenSize : hiddenBody.length ≤ engine.policy.defaults.maxRequestBytes)
    (parsed : ValidatedRequest.parse serde body = .ok request)
    (hiddenParsed : ValidatedRequest.parse serde hiddenBody = .ok hidden)
    (reveals : Reveals request hidden)
    (scans : ∀ target ∈ request.targets, TargetScans u engine.policy request target) :
    (∃ summary, (protect u serde engine hiddenBody scope now).1 = .ok (.blocked summary)) ↔
      (∃ summary, (protect u serde engine body scope now).1 = .ok (.blocked summary)) ∨
        MendsToken u engine request hidden scope now := by
  have genuine := (run.invariant (.new new)).genuine now
  rw [blocked_iff_findsBlock hiddenSize hiddenParsed (reveals.scans scans),
    blocked_iff_findsBlock size parsed scans]
  exact findsBlock_reveals genuine reveals

/-- A request with an access key, and one where the key is hidden. -/
def keySerde : SerdeJson :=
  .ofTable [(demoBody accessKey, demoValue accessKey), (demoBody hiddenKey, demoValue hiddenKey)]
    (by decide +kernel)

theorem protect_invisible_demo : ∃ summary,
    (demoEngine.protect Unicode.ascii keySerde (demoBody hiddenKey) demoScope 0).1
      = .ok (.blocked summary) := by
  have new : TokenLedger.withRandom HashMap.empty 1 (⟨0⟩ : CounterRandom) = .ok demoLedger := rfl
  have run : Reaches demoLedger 0 demoEngine.ledger := .start
  have hcall : (demoEngine.protect Unicode.ascii keySerde (demoBody accessKey) demoScope 0).1
        = .ok (.blocked ⟨9, [⟨.awsAccessKeyId, .credentials, .high, .block, .messageText, 1⟩]⟩) ∧
      (ValidatedRequest.parse keySerde (demoBody accessKey)).toOption.any (fun request =>
        (ValidatedRequest.parse keySerde (demoBody hiddenKey)).toOption.any fun hidden =>
          request.targets = hidden.targets && hidden.targets.all fun target =>
            (hidden.text target).toOption.any fun t => (request.text target).toOption.any fun text =>
              (text = t || text = visible t) &&
                (demoEngine.scanner.scan Unicode.ascii text).toOption.any fun _ => true) = true := by
    decide +kernel
  obtain ⟨hblocked, hparsed⟩ := hcall
  obtain ⟨request, hrequest, hparsed⟩ := exists_ok_of_any hparsed
  obtain ⟨hidden, hhidden, hparsed⟩ := exists_ok_of_any hparsed
  obtain ⟨htargets, htexts⟩ := Bool.and_eq_true_iff.mp hparsed
  have htargets := of_decide_eq_true htargets
  have hall : ∀ target ∈ hidden.targets, ∃ t text, hidden.text target = .ok t ∧
      request.text target = .ok text ∧ (text = t ∨ text = visible t) ∧
      ∃ found, demoEngine.scanner.scan Unicode.ascii text = .ok found := by
    intro target ht
    obtain ⟨t, htext, h⟩ := exists_ok_of_any (List.all_eq_true.mp htexts target ht)
    obtain ⟨text, htext', h⟩ := exists_ok_of_any h
    obtain ⟨hsame, hscan⟩ := Bool.and_eq_true_iff.mp h
    obtain ⟨found, hfound, _⟩ := exists_ok_of_any hscan
    exact ⟨t, text, htext, htext', by simpa using hsame, found, hfound⟩
  have reveals : Reveals request hidden := by
    refine ⟨htargets, fun target ht => ?_⟩
    obtain ⟨t, text, htext, htext', hsame, _⟩ := hall target ht
    rcases hsame with rfl | rfl
    · exact ⟨text, htext, .inl htext'⟩
    · exact ⟨t, htext, .inr htext'⟩
  have scans : ∀ target ∈ request.targets,
      TargetScans Unicode.ascii demoEngine.policy request target := by
    intro target ht
    obtain ⟨_, text, _, htext', _, found, hfound⟩ := hall target (htargets ▸ ht)
    exact ⟨text, found, htext', hfound⟩
  exact (protect_invisible new run (by decide +kernel) (by decide +kernel) hrequest hhidden reveals
    scans).mpr (.inl ⟨_, hblocked⟩)

end PrivacyEngine

end AgentVeil
