import AgentVeil.Engine.Lemmas.Recent
import AgentVeil.Engine.RoundTrip
import AgentVeil.Payload.Lens

/-!
# Forwarded tokens are live

Every token in a forwarded body was owned when the request came, or it was issued for the request. When
the ledger has room for the values of the request nothing is evicted, so all of them are owned after it.
When the ledger can hold the values, what is evicted is older than the tokens issued.
-/

namespace AgentVeil

open Rust
open Rust.Value (mapStrings)

namespace Rust.Value

/-- The strings of a mapped tree are those of the tree, mapped. -/
theorem mem_leaves_mapStrings {f : Path → Str → Str} {v : Value} (hv : Canonical v) {p : Path} {s : Str} :
    (p, s) ∈ (mapStrings f v).leaves ↔ ∃ s₀, (p, s₀) ∈ v.leaves ∧ s = f p s₀ := by
  rw [hv.mapStrings.mem_leaves, get?_mapStrings]
  constructor
  · intro h
    obtain ⟨w, hw, hmap⟩ := Option.map_eq_some_iff.mp h
    cases w with
    | string s₀ =>
        simp only [mapStrings, List.append_nil, string.injEq] at hmap
        exact ⟨s₀, hv.mem_leaves.mpr hw, hmap.symm⟩
    | _ => cases hmap
  · rintro ⟨s₀, hs, rfl⟩
    rw [hv.mem_leaves.mp hs]
    simp [mapStrings]

end Rust.Value

namespace PrivacyEngine

variable {R : Type} {is : List Issue} {scope : SessionScope} {now : Nat}

/-! ## Candidates of a redacted text -/

theorem bracketed_of_candidate {t : Str} (h : IsCandidate t) : Bracketed t :=
  (token_cases (h [] [])).1

/-- A mask is in brackets, but it is no candidate. -/
theorem bracketed_mask (c : DataClass) : Bracketed (mask c) ∧ ¬IsCandidate (mask c) := by
  constructor
  · refine ⟨"REDACTED_".toList ++ c.tokenLabel, ?_, ?_, ?_⟩
    · cases c with
      | _ => decide +kernel
    · cases c with
      | _ => decide +kernel
    · cases c with
      | _ => decide +kernel
  · intro h
    obtain ⟨label, _, digits, heq, _⟩ := derives_tokenPattern.mp (h [] [])
    -- the second characters differ
    have hmask : (mask c)[1]? = some 'R' := by
      cases c with
      | _ => decide +kernel
    rw [heq] at hmask
    cases hmask

/-- What holds of every candidate of a text and of every token issued for it holds of every candidate of
the redacted text: a part across a seam is none, since candidates, tokens and masks are in brackets. -/
theorem Redacted.candidates {P : Str → Prop} {off : Nat} {s out x : Str} {fs : List (Finding × Action)}
    {copied : List Span} (h : Redacted is off s fs out copied)
    (issued : ∀ i ∈ is, IsCandidate i.token ∧ P i.token)
    (source : ∀ p t q, x ++ s = p ++ t ++ q → IsCandidate t → P t) :
    ∀ p t q, x ++ out = p ++ t ++ q → IsCandidate t → P t := by
  induction h generalizing x with
  | rest => exact source
  | @kept off gap text s f fs out copied span allowed tail ih =>
      intro p t q hout ht
      apply @ih (x ++ gap ++ text) _ p t q _ ht
      · intro p t q hs ht
        exact source p t q (by simpa using hs) ht
      · simpa using hout
  | @replaced off gap text s w f fs out copied span replaces tail ih =>
      intro p t q hout ht
      have hw : Bracketed w ∧ (IsCandidate w → P w) := by
        rcases replaces with ⟨_, rfl⟩ | ⟨_, i, hi, _, _, rfl⟩
        · exact ⟨(bracketed_mask _).1, fun h => absurd h (bracketed_mask _).2⟩
        · obtain ⟨hcandidate, hlive⟩ := issued i hi
          exact ⟨bracketed_of_candidate hcandidate, fun _ => hlive⟩
      have hparts : p ++ t ++ q = x ++ gap ++ w ++ out := by
        rw [← hout]
        simp
      rcases (bracketed_of_candidate ht).apart hw.1 hparts with ⟨_, rfl⟩ | hbefore | hafter
      · exact hw.2 ht
      · -- in the copied text before the replacement
        obtain ⟨m, hm, _⟩ := @append_split_le (p ++ t) q (x ++ gap) (w ++ out)
          (by simpa using hparts) (by simpa using hbefore)
        refine source p t (m ++ text ++ s) ?_ ht
        rw [← List.append_assoc, ← List.append_assoc, hm]
        simp
      · obtain ⟨m, rfl, rfl⟩ := @append_split_le (x ++ gap ++ w) out p (t ++ q)
          (by simpa using hparts.symm) (by rw [len_append]; exact hafter)
        apply @ih [] _ m t q (by simp) ht
        intro p t q hs ht
        refine source (x ++ gap ++ text ++ p) t q ?_ ht
        rw [List.nil_append] at hs
        rw [hs]
        simp

variable {u : Unicode} {serde : SerdeJson} {engine : PrivacyEngine R} {body : List UInt8}
  {request : ValidatedRequest}

/-! ## Forwarded bodies -/

/-- A request that does not block has only candidates that its scope owns. -/
theorem owned_candidate (blocks : ¬FindsBlock u engine request scope now) {target : TextTarget}
    (ht : target ∈ request.targets) {p t q : Str} (htext : request.text target = .ok (p ++ t ++ q))
    (hscan : TargetScans u engine.policy request target) (hc : IsCandidate t) :
    (engine.ledger.ownsToken scope t now).1 = true := by
  obtain ⟨text, found, htext', hs⟩ := hscan
  obtain rfl := Except.ok.inj (htext.symm.trans htext')
  obtain ⟨f, hf, hclass, hspan⟩ := scan_candidate hs hc
  by_contra hown
  apply blocks
  refine ⟨target, ht, _, found, htext, hs, f, hf, ?_⟩
  have hget : get? (p ++ t ++ q) ⟨len p, len p + len t⟩ = some t :=
    get?_eq_some_iff.mpr ⟨p, q, rfl, rfl, rfl⟩
  rw [effectiveAction, ownsFinding, hspan, hget, hclass, engine.policy.ruleFor_hardBlock rfl]
  simp [hown, escalate]

/-- What is forwarded for a request: its tree with the texts for rewriting replaced, where the scope owns
every candidate. -/
structure Forwarded (serde : SerdeJson) (request : ValidatedRequest) (ledger : TokenLedger R)
    (scope : SessionScope) (now : Nat) (body : List UInt8) (g : Path → Str → Str) : Prop where
  written : serde.toVec (mapStrings g request.value) = some body
  read : (serde.fromSlice body).bind uniqueValue = some (serde.reparse (mapStrings g request.value))
  kept : ∀ q s, (q, s) ∈ request.value.leaves → ¬RewriteLeaf request.value q → g q s = s
  genuine : ledger.Genuine now
  owned : ∀ s, (s ∈ (mapStrings g request.value).keys ∨ ∃ q, (q, s) ∈ (mapStrings g request.value).leaves) →
    ∀ p t q, s = p ++ t ++ q → IsCandidate t → (ledger.ownsToken scope t now).1 = true

theorem Issues.genuine [RandomSource R] {policy : ValidatedPolicy} {l l' : TokenLedger R}
    (h : Issues policy scope now l is l') (hl : l.Genuine now) : l'.Genuine now := by
  induction h with
  | nil => exact hl
  | cons issue _ ih => exact ih ((Issue.issued issue).genuine hl).1

/-- A text that is not rewritten stays, unless it blocks. -/
theorem Redaction.eq_of_kept {policy : ValidatedPolicy} {ledger : TokenLedger R} {s out : Str}
    (h : Redaction u policy ledger scope now is .blockOnly s out)
    (hblock : ∀ found, (Scanner.new policy.detectors).scan u s = .ok found → ∀ f ∈ found,
      effectiveAction policy ledger scope now .blockOnly s f ≠ .block) : out = s := by
  obtain ⟨found, copied, hs, hred⟩ := h
  apply hred.eq_of_allowed
  intro g hg
  obtain ⟨_, hmem, hw⟩ := (resolves_actions u policy ledger scope now .blockOnly hs).origin g hg
  obtain ⟨f, hf, rfl⟩ := List.mem_map.mp hmem
  rw [hw.action]
  exact (effectiveAction_blockOnly policy ledger scope now s f).resolve_left (hblock found hs f hf)

/-- The text of no target has a candidate. -/
def Bare (request : ValidatedRequest) : Prop :=
  ∀ target ∈ request.targets, ∀ p t q, request.text target = .ok (p ++ t ++ q) → ¬IsCandidate t

/-- The ledger keeps the tokens of a request: it has room for the values that it asks tokens for, or the
request comes without tokens and the ledger can hold its values, so that older entries are evicted first. -/
def KeepsTokens [RandomSource R] (u : Unicode) (engine : PrivacyEngine R) (request : ValidatedRequest)
    (scope : SessionScope) (now : Nat) : Prop :=
  engine.ledger.HasRoom scope now (requestedValues u engine request scope now) ∨
    Bare request ∧ engine.ledger.sequence < u64Max ∧
      (requestedValues u engine request scope now).toFinset.card ≤ engine.ledger.maxEntries

/-- After the issues of a request whose tokens are kept, its scope owns the candidates that it owned in the
request, and the tokens issued. -/
theorem KeepsTokens.owned [RandomSource R] {n : Nat} {ledger ledger' : TokenLedger R}
    (keeps : KeepsTokens u engine request scope now) (inv : engine.ledger.Invariant n)
    (live : SameLive now engine.ledger ledger) (issues : Issues engine.policy scope now ledger is ledger')
    (keys : is.map Issue.key = requestedValues u engine request scope now) :
    (∀ i ∈ is, (ledger'.ownsToken scope i.token now).1 = true) ∧
    ∀ target ∈ request.targets, ∀ p t q, request.text target = .ok (p ++ t ++ q) → IsCandidate t →
      (engine.ledger.ownsToken scope t now).1 = true → (ledger'.ownsToken scope t now).1 = true := by
  rcases keeps with room | ⟨bare, few, fits⟩
  · have hroom : ledger.HasRoom scope now (is.map Issue.key ++ []) := by
      rw [List.append_nil, keys]
      exact TokenLedger.hasRoom_of_sameLive live room
    obtain ⟨_, hold, hnew⟩ := issues.keeps hroom
    constructor
    · intro i hi
      obtain ⟨e, he, hx, hs, _, _⟩ := hnew i hi
      exact ownsToken_eq_true.mpr ⟨e, he, hs, hx⟩
    · intro _ _ _ t _ _ _ ht
      rw [← live.ownsToken scope t] at ht
      obtain ⟨e₀, he₀, hs, hx⟩ := ownsToken_eq_true.mp ht
      obtain ⟨_, e, he, hx', hp⟩ := hold t e₀ he₀ hx
      exact ownsToken_eq_true.mpr ⟨e, he, hp.sameScope.trans hs, hx'⟩
  · have hfits : ((is ++ []).map Issue.key).toFinset.card ≤ ledger.maxEntries := by
      rw [List.append_nil, keys, live.maxEntries]
      exact fits
    obtain ⟨done, hdone, hrecent⟩ := issues.recent few (.start inv live) hfits
    constructor
    · intro i hi
      obtain ⟨e, he, hx, _, hs, _, _⟩ := hrecent.held i ((hdone i).mpr (by simpa using hi))
      exact ownsToken_eq_true.mpr ⟨e, he, hs, hx⟩
    · exact fun target ht p t q htext hc _ => absurd hc (bare target ht p t q htext)

/-- When the ledger keeps the tokens of a request, its scope owns every candidate in what is forwarded. -/
theorem exists_forwarded [RandomSource R] {map : HashMap Token Entry} {maxEntries n : Nat} {random : R}
    {start : TokenLedger R} (new : TokenLedger.withRandom map maxEntries random = .ok start)
    (run : Reaches start n engine.ledger) (hparse : ValidatedRequest.parse serde body = .ok request)
    (keeps : KeepsTokens u engine request scope now)
    {r : ForwardRequest} (h : (protect u serde engine body scope now).1 = .ok (.forward r)) :
    ∃ g, Forwarded serde request (protect u serde engine body scope now).2.ledger scope now r.body g := by
  have hp := protect_protected u serde engine body scope now
  rw [h] at hp
  generalize (protect u serde engine body scope now).2.ledger = ledger' at hp ⊢
  cases hp with
  | @forwarded request' plans ledger _ is g output judged blocks issues keys written redacted =>
      obtain rfl := Except.ok.inj (hparse.symm.trans judged.parsed)
      obtain ⟨htracks, _⟩ := parse_tracks judged.parsed
      have inv := run.invariant (.new new)
      have hgenuine := (inv.genuine now).of_sameLive judged.live
      have hcandidates := issues.candidates hgenuine
      obtain ⟨hissued, howned⟩ := keeps.owned inv judged.live issues (keys.trans judged.requestedValues.symm)
      -- the target of a string
      have htarget : ∀ q s, (q, s) ∈ request.value.leaves →
          ∃ target ∈ request.leafTargets, target ∈ request.targets ∧ target.path = q ∧
            request.text target = .ok s := by
        intro q s hs
        obtain ⟨target, ht, hpath⟩ := List.mem_map.mp (htracks.paths.mem_iff.mpr
          (List.mem_map.mpr ⟨(q, s), hs, rfl⟩))
        obtain rfl : target.path = q := hpath
        obtain ⟨s', hs', htext⟩ := htracks.text_leaf ht
        have hsame := (htracks.canonical.mem_leaves.mp hs').symm.trans
          (htracks.canonical.mem_leaves.mp hs)
        obtain rfl : s' = s := by simpa using hsame
        exact ⟨target, ht, (List.mem_filter.mp ht).1, rfl, htext⟩
      refine ⟨g, written, ?_, ?_, issues.genuine hgenuine, ?_⟩
      · exact uniqueValue_written htracks.canonical.mapStrings written
      · intro q s hs hr
        obtain ⟨target, ht, htargets, rfl, htext⟩ := htarget q s hs
        have hmode : target.mode = .blockOnly := by
          cases hm : target.mode with
          | rewrite => exact absurd ((htracks.mode target ht).mp hm) hr
          | blockOnly => rfl
        have hred := redacted target ht s hs
        rw [hmode] at hred
        apply hred.eq_of_kept
        intro found hscan f hf hblock
        exact blocks ⟨target, htargets, s, found, htext, hscan, f, hf, hmode ▸ hblock⟩
      rintro s (hs | ⟨q, hs⟩)
      · -- a key is the literal of a target
        rw [Value.keys_mapStrings, ← htracks.literals.mem_iff] at hs
        obtain ⟨target, ht, hliteral⟩ := List.mem_filterMap.mp hs
        intro p t q hsplit hc
        have htext : request.text target = .ok (p ++ t ++ q) := by
          rw [ValidatedRequest.text, hliteral, hsplit]
        exact howned target ht p t q htext hc (owned_candidate blocks ht htext (judged.scans target ht) hc)
      · -- a string is that of a target, redacted
        obtain ⟨s, hleaf, rfl⟩ := (Value.mem_leaves_mapStrings htracks.canonical).mp hs
        obtain ⟨target, ht, htargets, rfl, htext⟩ := htarget q s hleaf
        obtain ⟨found, copied, hscan, hred⟩ := redacted target ht s hleaf
        have hsource : ∀ p t q, [] ++ s = p ++ t ++ q → IsCandidate t →
            (ledger'.ownsToken scope t now).1 = true := by
          intro p t q hsplit hc
          rw [List.nil_append] at hsplit
          rw [hsplit] at htext
          exact howned target htargets p t q htext hc (owned_candidate blocks htargets htext
            (judged.scans target htargets) hc)
        exact hred.candidates (fun i hi => ⟨hcandidates i hi, hissued i hi⟩) hsource

/-- Forwarded tokens are live. When the ledger keeps the tokens of the request, every token in a forwarded
body is owned by the scope right after it, in its strings and in its keys. -/
theorem protect_forward_live [RandomSource R] {map : HashMap Token Entry} {maxEntries n : Nat}
    {random : R} {start : TokenLedger R}
    (new : TokenLedger.withRandom map maxEntries random = .ok start)
    (run : Reaches start n engine.ledger) (hparse : ValidatedRequest.parse serde body = .ok request)
    (keeps : KeepsTokens u engine request scope now)
    {r : ForwardRequest} (h : (protect u serde engine body scope now).1 = .ok (.forward r)) :
    ∃ value, (serde.fromSlice r.body).bind uniqueValue = some value ∧
      ∀ s, (s ∈ value.keys ∨ ∃ q, (q, s) ∈ value.leaves) →
        ∀ p t q, s = p ++ t ++ q → IsCandidate t →
          ((protect u serde engine body scope now).2.ledger.ownsToken scope t now).1 = true := by
  obtain ⟨g, hforwarded⟩ := exists_forwarded new run hparse keeps h
  refine ⟨_, hforwarded.read, ?_⟩
  simp only [SerdeJson.keys_reparse, SerdeJson.leaves_reparse]
  exact hforwarded.owned

/-! ## A ledger without room -/

def twoMails : Str := "a@b.co c@d.co".toList

/-- The token of the first address, which is issued after that of the second one. -/
def laterToken : Token :=
  tokenText .email ((List.ofFn fun _ : Fin tokenRandomBytes => (2 : UInt8)).flatMap hexByte)

def twoTokens : Str := laterToken ++ [' '] ++ demoToken

/-- A request with two addresses and what it is forwarded as. -/
def twoMailsSerde : SerdeJson :=
  .ofTable [(demoBody twoMails, demoValue twoMails), (demoBody twoTokens, demoValue twoTokens)]
    (by decide +kernel)

/-- A new ledger of one entry forwards two tokens, and the token of the second address is evicted by
that of the first one. -/
theorem protect_forward_evicted : ∃ (r : ForwardRequest) (value : Value) (q : Path) (p : Str),
    TokenLedger.withRandom HashMap.empty 1 (⟨0⟩ : CounterRandom) = .ok demoEngine.ledger ∧
      (demoEngine.protect Unicode.ascii twoMailsSerde (demoBody twoMails) demoScope 0).1
        = .ok (.forward r) ∧
      (twoMailsSerde.fromSlice r.body).bind uniqueValue = some value ∧
      (q, p ++ demoToken) ∈ value.leaves ∧ IsCandidate demoToken ∧
      ((demoEngine.protect Unicode.ascii twoMailsSerde (demoBody twoMails) demoScope 0).2.ledger.ownsToken
        demoScope demoToken 0).1 = false := by
  have hcall : (demoEngine.protect Unicode.ascii twoMailsSerde (demoBody twoMails) demoScope 0).1
        = .ok (.forward ⟨demoBody twoTokens, .rewritten,
          ⟨9, [⟨.email, .email, .high, .tokenize, .messageText, 2⟩]⟩⟩) ∧
      ((demoEngine.protect Unicode.ascii twoMailsSerde (demoBody twoMails) demoScope 0).2.ledger.ownsToken
        demoScope demoToken 0).1 = false := by
    decide +kernel
  refine ⟨_, demoValue twoTokens, [key "input"], laterToken ++ [' '], rfl, hcall.1, ?_, ?_, ?_, hcall.2⟩
  · decide +kernel
  · decide +kernel
  · exact fun b a => (isTokenOf_drawn .email _).derives rfl b a

/-- A ledger that is full with the entry of another session. -/
def crowdedEngine : PrivacyEngine CounterRandom :=
  ⟨demoPolicy, demoLedger.step (.issueTracked otherScope .email "c@d.eu".toList 0 300)⟩

def crowdedSerde : SerdeJson :=
  .ofTable [(demoBody "a@b.co".toList, demoValue "a@b.co".toList),
    (demoBody laterToken, demoValue laterToken)] (by decide +kernel)

/-- The request has no bracket and asks for one token, and the entry of the other session is evicted. -/
theorem crowdedEngine_protect :
    (crowdedEngine.protect Unicode.ascii crowdedSerde (demoBody "a@b.co".toList) demoScope 0).1
        = .ok (.forward ⟨demoBody laterToken, .rewritten,
          ⟨9, [⟨.email, .email, .high, .tokenize, .messageText, 1⟩]⟩⟩) ∧
      ((crowdedEngine.protect Unicode.ascii crowdedSerde (demoBody "a@b.co".toList) demoScope 0).2.ledger.ownsToken
        otherScope demoToken 0).1 = false ∧
      (ValidatedRequest.parse crowdedSerde (demoBody "a@b.co".toList)).toOption.all (fun request =>
        (request.targets.all fun target => (request.text target).toOption.all fun text => '[' ∉ text) &&
          (requestedValues Unicode.ascii crowdedEngine request demoScope 0).length ≤ 1) = true := by
  decide +kernel

theorem protect_forward_live_demo : ∃ value,
    (crowdedSerde.fromSlice (demoBody laterToken)).bind uniqueValue = some value ∧
      (∀ s, (s ∈ value.keys ∨ ∃ q, (q, s) ∈ value.leaves) → ∀ p t q, s = p ++ t ++ q → IsCandidate t →
        ((protect Unicode.ascii crowdedSerde crowdedEngine (demoBody "a@b.co".toList) demoScope 0
          ).2.ledger.ownsToken demoScope t 0).1 = true) ∧
      (crowdedEngine.ledger.ownsToken otherScope demoToken 0).1 = true ∧
      ((crowdedEngine.protect Unicode.ascii crowdedSerde (demoBody "a@b.co".toList) demoScope 0).2.ledger.ownsToken
        otherScope demoToken 0).1 = false := by
  have new : TokenLedger.withRandom HashMap.empty 1 (⟨0⟩ : CounterRandom) = .ok demoLedger := rfl
  have run : Reaches demoLedger 1 crowdedEngine.ledger :=
    Reaches.step (.issueTracked otherScope .email "c@d.eu".toList 0 300) .start
  obtain ⟨hforward, hevicted, hsmall⟩ := crowdedEngine_protect
  obtain ⟨request, hparse, _⟩ := forward_judged hforward
  rw [hparse] at hsmall
  obtain ⟨hbracket, hlen⟩ := Bool.and_eq_true_iff.mp hsmall
  have bare : Bare request := by
    intro target ht p t q htext hc
    have hnone := List.all_eq_true.mp hbracket target ht
    rw [htext] at hnone
    obtain ⟨inner, rfl, _⟩ := bracketed_of_candidate hc
    exact of_decide_eq_true hnone (by simp)
  have fits : (requestedValues Unicode.ascii crowdedEngine request demoScope 0).toFinset.card ≤ 1 :=
    Nat.le_trans (List.toFinset_card_le _) (of_decide_eq_true hlen)
  obtain ⟨value, hvalue, hlive⟩ :=
    protect_forward_live new run hparse (.inr ⟨bare, by decide, fits⟩) hforward
  exact ⟨value, hvalue, hlive, by decide +kernel, hevicted⟩

end PrivacyEngine

end AgentVeil
