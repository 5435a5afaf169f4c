import AgentVeil.Detector.Resolution
import AgentVeil.Engine.Theorems

/-!
# A stricter policy exposes no more

Two engines with one ledger, the second with the stronger actions.
-/

namespace AgentVeil

open Rust
open Rust.Value (mapStrings)

/-- The second policy is at least as strict as the first, and differs in its rules only. -/
structure Stricter (policy policy' : ValidatedPolicy) : Prop where
  defaults : policy'.defaults = policy.defaults
  detectors : policy'.detectors = policy.detectors
  action : ∀ c, (policy.ruleFor c).action.precedence ≤ (policy'.ruleFor c).action.precedence

theorem Stricter.refl (policy : ValidatedPolicy) : Stricter policy policy :=
  ⟨rfl, rfl, fun _ => Nat.le_refl _⟩

theorem Action.allow_le (a : Action) : Action.allow.precedence ≤ a.precedence := by
  cases a <;> decide

theorem Action.le_block (a : Action) : a.precedence ≤ Action.block.precedence := by
  cases a <;> decide

theorem Action.eq_allow_of_le {a : Action} (h : a.precedence ≤ Action.allow.precedence) :
    a = .allow :=
  Action.precedence_inj (Nat.le_antisymm h a.allow_le)

theorem Action.eq_block_of_le {a : Action} (h : Action.block.precedence ≤ a.precedence) :
    a = .block :=
  Action.precedence_inj (Nat.le_antisymm a.le_block h)

namespace PrivacyEngine

variable {R : Type} {policy policy' : ValidatedPolicy} {ledger : TokenLedger R}
  {scope : SessionScope} {now : Nat}

theorem escalate_mono (mode : RewriteMode) {a a' : Action} (h : a.precedence ≤ a'.precedence) :
    (escalate mode a).precedence ≤ (escalate mode a').precedence := by
  unfold escalate
  by_cases ha' : mode = .blockOnly ∧ a' ≠ .allow
  · rw [if_pos ha']
    exact Action.le_block _
  · rw [if_neg ha']
    -- what is escalated in the first run is escalated in the second
    have ha : ¬(mode = .blockOnly ∧ a ≠ .allow) := by
      intro ⟨hmode, ha⟩
      apply ha' ⟨hmode, _⟩
      rintro rfl
      exact ha (Action.eq_allow_of_le h)
    rw [if_neg ha]
    exact h

theorem effectiveAction_mono (h : Stricter policy policy') (mode : RewriteMode) (text : Str)
    (f : Finding) : (effectiveAction policy ledger scope now mode text f).precedence
      ≤ (effectiveAction policy' ledger scope now mode text f).precedence := by
  unfold effectiveAction
  split
  · exact Nat.le_refl _
  · exact escalate_mono mode (h.action f.dataClass)

/-! ## The verdict -/

theorem TargetScans.stricter {u : Unicode} (h : Stricter policy policy')
    {request : ValidatedRequest} {target : TextTarget}
    (hs : TargetScans u policy request target) : TargetScans u policy' request target := by
  unfold TargetScans
  rw [h.detectors]
  exact hs

theorem FindsBlock.stricter {u : Unicode} (h : Stricter policy policy') {request : ValidatedRequest}
    (hf : FindsBlock u ⟨policy, ledger⟩ request scope now) :
    FindsBlock u ⟨policy', ledger⟩ request scope now := by
  obtain ⟨target, ht, text, found, htext, hs, f, hfound, hblock⟩ := hf
  refine ⟨target, ht, text, found, htext, ?_, f, hfound, ?_⟩
  · unfold scanner at hs ⊢
    simp only [h.detectors]
    exact hs
  · apply Action.eq_block_of_le
    rw [← hblock]
    exact effectiveAction_mono h target.mode text f

/-! ## What is copied -/

/-- The byte `n` of the text is copied. -/
def Copies (copied : List Span) (n : Nat) : Prop := ∃ c ∈ copied, c.start ≤ n ∧ n < c.stop

theorem copies_cons {c : Span} {copied : List Span} {n : Nat} :
    Copies (c :: copied) n ↔ (c.start ≤ n ∧ n < c.stop) ∨ Copies copied n := by
  simp [Copies]

/-- A byte is copied exactly when every finding that it lies in is allowed. -/
theorem Redacted.copies_iff {is : List Issue} {off : Nat} {s out : Str}
    {fs : List (Finding × Action)} {copied : List Span} (h : Redacted is off s fs out copied)
    (n : Nat) : Copies copied n ↔
      off ≤ n ∧ n < off + len s ∧ ∀ f ∈ fs, Fills f n → f.2 = .allow := by
  induction h with
  | rest => simp [Copies]
  | @kept off gap text s f fs out copied span allowed tail ih =>
      have hstart := tail.le_start.1
      rw [copies_cons, copies_cons, ih]
      simp only [len_append, List.forall_mem_cons, allowed, implies_true, true_and]
      constructor
      · rintro (h | h | h)
        · refine ⟨h.1, by omega, fun g hg hn => ?_⟩
          have := hstart g hg
          unfold Fills at hn
          omega
        · refine ⟨by omega, by omega, fun g hg hn => ?_⟩
          have := hstart g hg
          unfold Fills at hn
          omega
        · exact ⟨by omega, by omega, h.2.2⟩
      · intro ⟨hle, hlt, hall⟩
        by_cases hgap : n < off + len gap
        · exact .inl ⟨hle, hgap⟩
        · by_cases htext : n < off + len gap + len text
          · exact .inr (.inl ⟨Nat.le_of_not_lt hgap, htext⟩)
          · exact .inr (.inr ⟨Nat.le_of_not_lt htext, by omega, hall⟩)
  | @replaced off gap text s w f fs out copied span replaces tail ih =>
      have hstart := tail.le_start.1
      have hne : f.2 ≠ .allow := by
        intro ha
        rcases replaces with ⟨hm, _⟩ | ⟨ht, _⟩
        · rw [ha] at hm; cases hm
        · rw [ha] at ht; cases ht
      have hfills : Fills f n ↔ off + len gap ≤ n ∧ n < off + len gap + len text := by
        rw [Fills, span]
      rw [copies_cons, ih]
      simp only [len_append, List.forall_mem_cons, hne, imp_false, hfills]
      constructor
      · rintro (h | h)
        · refine ⟨h.1, by omega, by omega, fun g hg hn => ?_⟩
          have := hstart g hg
          unfold Fills at hn
          omega
        · exact ⟨by omega, by omega, by omega, h.2.2⟩
      · intro ⟨hle, hlt, hout, hall⟩
        by_cases hgap : n < off + len gap
        · exact .inl ⟨hle, hgap⟩
        · exact .inr ⟨by omega, by omega, hall⟩

/-- What is copied under the stricter policy is copied under the other. -/
theorem Copies.of_stricter {u : Unicode} {is is' : List Issue} {s out out' : Str}
    {found : List Finding} {copied copied' : List Span} (h : Stricter policy policy')
    (mode : RewriteMode) (hs : (Scanner.new policy.detectors).scan u s = .ok found)
    (hred : Redacted is 0 s (resolveOverlaps (actions policy ledger scope now mode s found)) out
      copied)
    (hred' : Redacted is' 0 s (resolveOverlaps (actions policy' ledger scope now mode s found)) out'
      copied') {n : Nat} (hn : Copies copied' n) : Copies copied n := by
  obtain ⟨hle, hlt, hall⟩ := (hred'.copies_iff n).mp hn
  apply (hred.copies_iff n).mpr
  refine ⟨hle, hlt, fun g hg hfills => ?_⟩
  obtain ⟨g', hg', hspan, hprec⟩ := resolveOverlaps_mono
    (fun f hf => (scan_ranges u policy hs f hf).lt)
    (fun f _ => effectiveAction_mono h mode s f) hg
  have hallow := hall g' hg' (by unfold Fills at hfills ⊢; rwa [hspan])
  rw [hallow] at hprec
  exact Action.eq_allow_of_le hprec

/-! ## Two runs -/

variable [RandomSource R] {u : Unicode} {serde : SerdeJson} {body : List UInt8}

/-- The redactions of the rewritten strings of a forwarded request. -/
theorem forward_redactions {engine : PrivacyEngine R} {r : ForwardRequest}
    {request : ValidatedRequest} (hparse : ValidatedRequest.parse serde body = .ok request)
    (h : (protect u serde engine body scope now).1 = .ok (.forward r)) :
    ∃ is g, (serde.fromSlice r.body).bind uniqueValue = some (serde.reparse (mapStrings g request.value)) ∧
      ∀ q s, (q, s) ∈ request.value.leaves → RewriteLeaf request.value q →
        Redaction u engine.policy engine.ledger scope now is .rewrite s (g q s) := by
  have hp := protect_protected u serde engine body scope now
  rw [h] at hp
  generalize (protect u serde engine body scope now).2.ledger = ledger' at hp
  cases hp with
  | @forwarded request' plans ledger _ is g output judged blocks issues keys written redacted =>
      have hsame := judged.parsed
      rw [hparse, Except.ok.injEq] at hsame
      subst hsame
      obtain ⟨htracks, _⟩ := parse_tracks hparse
      refine ⟨is, g, ?_, fun q s hq hr => ?_⟩
      · exact uniqueValue_written htracks.canonical.mapStrings written
      · obtain ⟨t, ht, hpath⟩ := List.mem_map.mp (htracks.paths.mem_iff.mpr
          (List.mem_map.mpr ⟨(q, s), hq, rfl⟩))
        obtain rfl : t.path = q := hpath
        rw [← (htracks.mode t ht).mpr hr]
        exact redacted t ht s hq

/-- A stricter policy never exposes more. What is blocked under the first policy is blocked under
the second; and if both forward, every byte of a rewritten string that the second copies is copied
by the first. -/
theorem protect_stricter (h : Stricter policy policy') :
    ((∃ summary, (protect u serde ⟨policy, ledger⟩ body scope now).1 = .ok (.blocked summary)) →
      ∃ summary, (protect u serde ⟨policy', ledger⟩ body scope now).1 = .ok (.blocked summary)) ∧
    ∀ r r', (protect u serde ⟨policy, ledger⟩ body scope now).1 = .ok (.forward r) →
      (protect u serde ⟨policy', ledger⟩ body scope now).1 = .ok (.forward r') →
      ∃ request is is' g g', ValidatedRequest.parse serde body = .ok request ∧
        (serde.fromSlice r.body).bind uniqueValue = some (serde.reparse (mapStrings g request.value)) ∧
        (serde.fromSlice r'.body).bind uniqueValue = some (serde.reparse (mapStrings g' request.value)) ∧
        ∀ q s, (q, s) ∈ request.value.leaves → RewriteLeaf request.value q →
          ∃ found copied copied', (Scanner.new policy.detectors).scan u s = .ok found ∧
            Redacted is 0 s (resolveOverlaps (actions policy ledger scope now .rewrite s found))
              (g q s) copied ∧
            Redacted is' 0 s (resolveOverlaps (actions policy' ledger scope now .rewrite s found))
              (g' q s) copied' ∧
            ∀ n, Copies copied' n → Copies copied n := by
  constructor
  · intro ⟨summary, hblocked⟩
    have hp := protect_protected u serde ⟨policy, ledger⟩ body scope now
    rw [hblocked] at hp
    generalize (protect u serde ⟨policy, ledger⟩ body scope now).2.ledger = after at hp
    cases hp with
    | @blocked request plans _ judged blocks =>
        have hp' := protect_protected u serde ⟨policy', ledger⟩ body scope now
        generalize (protect u serde ⟨policy', ledger⟩ body scope now).1 = outcome at hp' ⊢
        generalize (protect u serde ⟨policy', ledger⟩ body scope now).2.ledger = after' at hp'
        cases hp' with
        | refused no =>
            rcases no with no | ⟨e, no⟩
            · rw [h.defaults] at no
              exact absurd judged.size (Nat.not_le.mpr no)
            · rw [judged.parsed] at no
              cases no
        | unplanned parsed _ no =>
            rw [judged.parsed, Except.ok.injEq] at parsed
            subst parsed
            obtain ⟨target, ht, hn⟩ := no
            exact absurd ((judged.scans target ht).stricter h) hn
        | blocked judged' blocks' => exact ⟨_, rfl⟩
        | panicked judged' blocks' | rolledBack judged' blocks' | forwarded judged' blocks' =>
            have hsame := judged'.parsed
            rw [judged.parsed, Except.ok.injEq] at hsame
            subst hsame
            exact absurd (blocks.stricter h) blocks'
  · intro r r' hr hr'
    obtain ⟨request, hparse, _⟩ := forward_judged hr
    obtain ⟨is, g, hbody, hred⟩ := forward_redactions hparse hr
    obtain ⟨is', g', hbody', hred'⟩ := forward_redactions hparse hr'
    refine ⟨request, is, is', g, g', hparse, hbody, hbody', fun q s hq hw => ?_⟩
    obtain ⟨found, copied, hs, hred⟩ := hred q s hq hw
    obtain ⟨found', copied', hs', hred'⟩ := hred' q s hq hw
    simp only at hs hs'
    rw [h.detectors, hs, Except.ok.injEq] at hs'
    subst hs'
    exact ⟨found, copied, copied', hs, hred, hred', fun n hn =>
      hn.of_stricter h .rewrite hs hred hred'⟩

/-- The demonstration policy, with a mask for addresses. -/
def maskPolicy : ValidatedPolicy :=
  ⟨⟨1, "mask".toList, ⟨.block, false, 1048576, 1⟩,
    allDataClasses.map fun c =>
      (c.policyKey, if c = .email then ⟨.mask, false, none⟩ else ⟨.block, false, none⟩),
    ⟨[], [], []⟩⟩, by decide⟩

theorem stricter_maskPolicy : Stricter demoPolicy maskPolicy where
  defaults := by rw [ValidatedPolicy.defaults, ValidatedPolicy.defaults, maskPolicy, demoPolicy]
  detectors := by rw [ValidatedPolicy.detectors, ValidatedPolicy.detectors, maskPolicy, demoPolicy]
  action := by
    intro c
    cases c with
    | _ => decide +kernel

/-- A request, and what it is forwarded as under each of the two policies. -/
def maskSerde : SerdeJson :=
  .ofTable [(demoBody "a@b.co".toList, demoValue "a@b.co".toList),
    (demoBody demoToken, demoValue demoToken),
    (demoBody (mask .email), demoValue (mask .email))] (by decide)

theorem protect_both :
    ((protect Unicode.ascii maskSerde ⟨demoPolicy, demoLedger⟩ (demoBody "a@b.co".toList) demoScope
        0).1 = .ok (.forward ⟨demoBody demoToken, .rewritten,
          ⟨9, [⟨.email, .email, .high, .tokenize, .messageText, 1⟩]⟩⟩)) ∧
      (protect Unicode.ascii maskSerde ⟨maskPolicy, demoLedger⟩ (demoBody "a@b.co".toList) demoScope
        0).1 = .ok (.forward ⟨demoBody (mask .email), .rewritten,
          ⟨9, [⟨.email, .email, .high, .mask, .messageText, 1⟩]⟩⟩) := by
  decide +kernel

theorem protect_stricter_demo : ∃ request g g',
    ValidatedRequest.parse maskSerde (demoBody "a@b.co".toList) = .ok request ∧
      (maskSerde.fromSlice (demoBody demoToken)).bind uniqueValue
        = some (maskSerde.reparse (mapStrings g request.value)) ∧
      (maskSerde.fromSlice (demoBody (mask .email))).bind uniqueValue
        = some (maskSerde.reparse (mapStrings g' request.value)) := by
  obtain ⟨request, _, _, g, g', hparse, hbody, hbody', _⟩ :=
    (protect_stricter stricter_maskPolicy).2 _ _ protect_both.1 protect_both.2
  exact ⟨request, g, g', hparse, hbody, hbody'⟩

end PrivacyEngine

end AgentVeil
