import AgentVeil.Engine.Restoration
import AgentVeil.Engine.Theorems
import AgentVeil.Ledger.Invariants

/-!
# Restoration undoes tokenization

A string whose findings are all tokenized is forwarded as a splice of its gaps and the tokens issued. No
gap holds a token, since the scan finds every token. So the restorer finds the issued tokens and nothing
else, and puts the values back.
-/

namespace AgentVeil

open Rust
open Rust.Value (mapStrings)

namespace TokenLedger

variable {R : Type}

/-- Every unexpired entry stands under a token of its class, which is restorable. -/
def Genuine (l : TokenLedger R) (now : Nat) : Prop :=
  ∀ t e, l.entries.get t = some e → now < e.expiresAtMs →
    IsTokenOf e.dataClass t ∧ e.dataClass.hardBlock = false

variable {l l' : TokenLedger R} {scope : SessionScope} {c : DataClass} {v : Str} {now ttl : Nat}

theorem Invariant.genuine {n : Nat} (inv : Invariant n l) (now : Nat) : l.Genuine now :=
  fun _ _ he _ => ⟨inv.key he, inv.restorable he⟩

theorem Genuine.of_sameLive (h : l.Genuine now) (hl : SameLive now l l') : l'.Genuine now :=
  fun t e he hx => h t e ((hl.entries t e hx).mp he) hx

/-- The token that an issue returns is one of the class asked for, and the ledger stays genuine. -/
theorem Issued.genuine {r : Except LedgerError IssuedToken} (h : Issued l scope c v now ttl r l')
    (hl : l.Genuine now) :
    l'.Genuine now ∧ ∀ i, r = .ok i → IsTokenOf c i.token ∧ c.hardBlock = false := by
  have hopened : ∀ {t e}, (l.opened now).entries.get t = some e →
      IsTokenOf e.dataClass t ∧ e.dataClass.hardBlock = false := fun he =>
    hl _ _ (get_opened.mp he).1 (get_opened.mp he).2
  cases h with
  | rejected => exact ⟨hl, by rintro _ ⟨⟩⟩
  | @reused t e ok found =>
      obtain ⟨he, _, rfl, _, _⟩ := findReusable_spec found
      refine ⟨?_, ?_⟩
      · intro t' e' he' _
        rw [HashMap.get_modify] at he'
        split at he'
        · rename_i ht
          obtain ⟨e₀, he₀, rfl⟩ := Option.map_eq_some_iff.mp he'
          have hgenuine := hopened he₀
          exact hgenuine
        · exact hopened he'
      · rintro _ ⟨⟩
        exact hopened he
  | @created encoded random ok missing shape fresh =>
      obtain ⟨bytes, rfl⟩ := shape
      have htoken := isTokenOf_drawn c bytes
      refine ⟨?_, ?_⟩
      · intro t' e' he' _
        rw [HashMap.get_insert] at he'
        split at he'
        · rename_i ht
          cases he'
          exact ⟨ht ▸ htoken, ok.2.1⟩
        · exact hopened (get_of_get_makeRoom he')
      · rintro _ ⟨⟩
        exact ⟨htoken, ok.2.1⟩
  | failed =>
      refine ⟨?_, by rintro _ ⟨⟩⟩
      intro t' e' he' _
      exact hopened (get_of_get_makeRoom he')

end TokenLedger

namespace PrivacyEngine

variable {R : Type} [RandomSource R] {policy : ValidatedPolicy} {scope : SessionScope} {now : Nat}

/-- The tokens of a run of issues are candidates of the restorer. -/
theorem Issues.candidates {l l' : TokenLedger R} {is : List Issue}
    (h : Issues policy scope now l is l') (hl : l.Genuine now) : ∀ i ∈ is, IsCandidate i.token := by
  induction h with
  | nil => simp
  | cons issue _ ih =>
      obtain ⟨hl, htoken⟩ := (Issue.issued issue).genuine hl
      obtain ⟨htoken, hclass⟩ := htoken _ rfl
      exact List.forall_mem_cons.mpr ⟨fun b a => htoken.derives hclass b a, ih hl⟩

omit [RandomSource R]

/-- A text whose findings are all tokenized is a splice of the issued values, and it is rewritten to the
splice of their tokens. If its findings cover every candidate, the gaps hold none. -/
theorem Redacted.spliced {is : List Issue} {off : Nat} {s out : Str} {fs : List (Finding × Action)}
    {copied : List Span} (h : Redacted is off s fs out copied) (tokenized : ∀ f ∈ fs, f.2 = .tokenize)
    (covered : ∀ p t q, s = p ++ t ++ q → IsCandidate t → ∃ f ∈ fs,
      f.1.sourceSpan.start ≤ off + len p ∧ off + len p + len t ≤ f.1.sourceSpan.stop) :
    ∃ ps last, s = splice Issue.value ps last ∧ out = splice Issue.token ps last ∧
      (∀ p ∈ ps, p.2 ∈ is ∧ Free IsCandidate p.1) ∧ Free IsCandidate last := by
  have hpos : ∀ {t}, IsCandidate t → 0 < len t := fun ht =>
    len_pos.mpr (nonEmpty_tokenPattern _ _ _ (ht [] []))
  induction h with
  | rest =>
      refine ⟨[], _, rfl, rfl, by simp, ?_⟩
      intro p t q hs ht
      obtain ⟨f, hf, _⟩ := covered p t q hs ht
      cases hf
  | kept span allowed _ _ =>
      rw [tokenized _ List.mem_cons_self] at allowed
      cases allowed
  | @replaced off gap text s w f fs out copied span replaces tail ih =>
      obtain ⟨hf, hfs⟩ := List.forall_mem_cons.mp tokenized
      obtain ⟨i, hi, _, rfl, rfl⟩ : ∃ i ∈ is, i.dataClass = f.1.dataClass ∧ i.value = text ∧
          i.token = w := by
        rcases replaces with ⟨hm, _⟩ | ⟨_, hi⟩
        · rw [hf] at hm
          cases hm
        · exact hi
      have hlater := tail.le_start.1
      obtain ⟨ps, last, rfl, rfl, hps, hlast⟩ := ih hfs (by
        intro p t q hs ht
        obtain ⟨g, hg, hstart, hstop⟩ := covered (gap ++ i.value ++ p) t q (by rw [hs]; simp) ht
        have := hpos ht
        simp only [len_append] at hstart hstop
        rcases List.mem_cons.mp hg with rfl | hg
        · rw [span] at hstop
          simp only at hstop
          omega
        · exact ⟨g, hg, by omega, by omega⟩)
      refine ⟨(gap, i) :: ps, last, by simp, by simp, List.forall_mem_cons.mpr ⟨⟨hi, ?_⟩, hps⟩, hlast⟩
      -- no finding begins in the gap
      intro p t q hs ht
      simp only at hs
      obtain ⟨g, hg, hstart, _⟩ := covered p t (q ++ i.value ++ splice Issue.value ps last)
        (by rw [hs]; simp) ht
      have := hpos ht
      have hgap := congrArg len hs
      simp only [len_append] at hgap
      rcases List.mem_cons.mp hg with rfl | hg
      · rw [span] at hstart
        simp only at hstart
        omega
      · have := hlater g hg
        omega

/-- A scan that succeeds finds every candidate of the text, at exactly its position. -/
theorem scan_candidate {u : Unicode} {scanner : Scanner} {p t q : Str} {found : List Finding}
    (hs : scanner.scan u (p ++ t ++ q) = .ok found) (ht : IsCandidate t) :
    ∃ f ∈ found, f.dataClass = .tokenNamespace ∧ f.sourceSpan = ⟨len p, len p + len t⟩ := by
  have hinert := (token_cases (ht [] [])).2
  obtain ⟨views, hviews, hscan⟩ := mem_scan u hs
  obtain ⟨root, hroot, hmem, _⟩ := mem_scanViews u hviews
  obtain ⟨fs, hfs, hsame⟩ := hscan _ hmem
  have hreach : ScanView.Reachable u.nfkc (p ++ t ++ q) root := .normalize hroot
  obtain ⟨a, b, before, after, htext, hsource, hlen, _, _⟩ := hreach.isolates u hinert
  obtain ⟨⟨m, hm, ha, hmt⟩, _⟩ := @findIter_token [] a t b (ht [] b)
  rw [← htext] at hm
  obtain ⟨f, hf, hclass, hspan⟩ := scanView_pattern u hfs
    (List.mem_cons_self : ⟨tokenPattern, _, _, _, _⟩ ∈ patternDetectors u) (.inl rfl) hm
  have hshows : root.Shows a t b (ScanView.unitSpans (len p) (len t)) :=
    ⟨htext, before, after, hsource, hlen, ScanView.length_unitSpans _ _⟩
  have hrange : m.range = ⟨len a, len a + len t⟩ := by
    rw [Part.range, Part.start, ← len_reverse, ha, hmt]
  have hexact : f.sourceSpan = ⟨len p, len p + len t⟩ :=
    hshows.combinedSource_unit (len_pos.mpr hinert.ne) (Nat.le_refl _)
      (by rw [Nat.add_zero, ← hrange]; exact hspan)
  obtain ⟨g, hg, hfg⟩ := hsame f hf
  simp only [sameFinding, Bool.and_eq_true, decide_eq_true_eq] at hfg
  exact ⟨g, hg, hfg.1.2 ▸ hclass, hfg.1.1 ▸ hexact⟩

/-- The resolved findings of a scan cover every candidate of the text. -/
theorem covers_candidate {u : Unicode} {policy : ValidatedPolicy} {ledger : TokenLedger R}
    {mode : RewriteMode} {p t q : Str} {found : List Finding}
    (hs : (Scanner.new policy.detectors).scan u (p ++ t ++ q) = .ok found) (ht : IsCandidate t) :
    ∃ g ∈ resolveOverlaps (actions policy ledger scope now mode (p ++ t ++ q) found),
      g.1.sourceSpan.start ≤ len p ∧ len p + len t ≤ g.1.sourceSpan.stop := by
  obtain ⟨f, hf, _, hspan⟩ := scan_candidate hs ht
  obtain ⟨g, hg, hc⟩ := (resolves_actions u policy ledger scope now mode hs).covers _
    (List.mem_map.mpr ⟨f, hf, rfl⟩)
  have hstart := hc.start
  have hstop := hc.stop
  simp only [hspan] at hstart hstop
  exact ⟨g, hg, hstart, hstop⟩

variable [RandomSource R] {u : Unicode} {serde : SerdeJson} {engine : PrivacyEngine R}
  {body : List UInt8}

/-- What is forwarded is, at every string whose resolved findings are all tokenized, a splice of issued
tokens between gaps without candidates. -/
theorem forwarded_spliced {map : HashMap Token Entry} {maxEntries n : Nat} {random : R}
    {start : TokenLedger R} (new : TokenLedger.withRandom map maxEntries random = .ok start)
    (run : Reaches start n engine.ledger) {r : ForwardRequest}
    (h : (protect u serde engine body scope now).1 = .ok (.forward r)) :
    ∃ request is g, ValidatedRequest.parse serde body = .ok request ∧
      (serde.fromSlice r.body).bind uniqueValue = some (serde.reparse (mapStrings g request.value)) ∧
      is.map Issue.key = requestedValues u engine request scope now ∧
      (∃ l, SameLive now engine.ledger l ∧
        Issues engine.policy scope now l is (protect u serde engine body scope now).2.ledger) ∧
      ∀ q s found, (q, s) ∈ request.value.leaves → RewriteLeaf request.value q →
        engine.scanner.scan u s = .ok found →
        (∀ f ∈ resolveOverlaps (actions engine.policy engine.ledger scope now .rewrite s found),
          f.2 = .tokenize) →
        ∃ ps last, s = splice Issue.value ps last ∧ g q s = splice Issue.token ps last ∧
          (∀ p ∈ ps, p.2 ∈ is ∧ Free IsCandidate p.1 ∧ IsCandidate p.2.token) ∧
          Free IsCandidate last := by
  have hp := protect_protected u serde engine body scope now
  rw [h] at hp
  generalize (protect u serde engine body scope now).2.ledger = ledger' at hp
  cases hp with
  | @forwarded request plans ledger _ is g output judged blocks issues keys written redacted =>
      obtain ⟨htracks, _⟩ := parse_tracks judged.parsed
      have hgenuine := ((run.invariant (.new new)).genuine now).of_sameLive judged.live
      refine ⟨request, is, g, judged.parsed, ?_, keys.trans judged.requestedValues.symm,
        ⟨ledger, judged.live, issues⟩, ?_⟩
      · exact uniqueValue_written htracks.canonical.mapStrings written
      · intro q s found hq hr hs htokenize
        obtain ⟨t, ht, hpath⟩ := List.mem_map.mp (htracks.paths.mem_iff.mpr
          (List.mem_map.mpr ⟨(q, s), hq, rfl⟩))
        obtain rfl : t.path = q := hpath
        obtain ⟨found', copied, hs', hred⟩ := redacted t ht s hq
        obtain rfl := Except.ok.inj (hs.symm.trans hs')
        rw [(htracks.mode t ht).mpr hr] at hred
        obtain ⟨ps, last, hvalue, htoken, hps, hlast⟩ := hred.spliced htokenize (by
          rintro p t q rfl hc
          simpa using covers_candidate hs hc)
        refine ⟨ps, last, hvalue, htoken, ?_, hlast⟩
        intro p hp
        obtain ⟨hi, hgap⟩ := hps p hp
        exact ⟨hi, hgap, issues.candidates hgenuine p.2 hi⟩

omit [RandomSource R] in
/-- A splice of candidates between free gaps is restored to the splice of what they stand for. -/
theorem restoreDisplayText_splice {engine : PrivacyEngine R} {ps : List (Str × Issue)} {last : Str}
    {later : Nat} (parts : ∀ p ∈ ps, Free IsCandidate p.1 ∧ IsCandidate p.2.token)
    (free : Free IsCandidate last)
    (maps : ∀ p ∈ ps, engine.ledger.Maps scope p.2.token p.2.value later) :
    (engine.restoreDisplayText scope (splice Issue.token ps last) later).1
      = some (splice Issue.value ps last) := by
  have hfound := separates_tokenPattern.findIter_splice (w := Issue.token)
    (fun p hp => (parts p hp).2) (fun p hp => (parts p hp).1) free
  have hrestore := @restoreMatches_splice _ _ _ scope later _ _ last engine.ledger hfound
  have hreveal : splice (fun i => engine.ledger.reveal scope later (Issue.token i)) ps last
      = splice Issue.value ps last := splice_congr fun p hp => (maps p hp).reveal
  rw [hreveal] at hrestore
  exact hrestore

/-- Restoration undoes tokenization. A forwarded string all of whose resolved findings are tokenized is
put back exactly as it was, at any time and by any engine whose ledger still has the tokens written into
it stand for the values they were issued for. -/
theorem restoreDisplayText_forwarded {map : HashMap Token Entry} {maxEntries n : Nat} {random : R}
    {start : TokenLedger R} (new : TokenLedger.withRandom map maxEntries random = .ok start)
    (run : Reaches start n engine.ledger) {r : ForwardRequest}
    (h : (protect u serde engine body scope now).1 = .ok (.forward r)) :
    ∃ request is g, ValidatedRequest.parse serde body = .ok request ∧
      (serde.fromSlice r.body).bind uniqueValue = some (serde.reparse (mapStrings g request.value)) ∧
      is.map Issue.key = requestedValues u engine request scope now ∧
      (∃ l, SameLive now engine.ledger l ∧
        Issues engine.policy scope now l is (protect u serde engine body scope now).2.ledger) ∧
      ∀ q s found, (q, s) ∈ request.value.leaves → RewriteLeaf request.value q →
        engine.scanner.scan u s = .ok found →
        (∀ f ∈ resolveOverlaps (actions engine.policy engine.ledger scope now .rewrite s found),
          f.2 = .tokenize) →
        ∃ ps last, s = splice Issue.value ps last ∧ g q s = splice Issue.token ps last ∧
          (∀ p ∈ ps, p.2 ∈ is) ∧
          ∀ (later : Nat) (engine' : PrivacyEngine R),
            (∀ p ∈ ps, engine'.ledger.Maps scope p.2.token p.2.value later) →
            (engine'.restoreDisplayText scope (g q s) later).1 = some s := by
  obtain ⟨request, is, g, hparse, hbody, hkeys, hissues, hleaves⟩ := forwarded_spliced new run h
  refine ⟨request, is, g, hparse, hbody, hkeys, hissues, ?_⟩
  intro q s found hq hr hs htokenize
  obtain ⟨ps, last, hvalue, htoken, hps, hlast⟩ := hleaves q s found hq hr hs htokenize
  refine ⟨ps, last, hvalue, htoken, fun p hp => (hps p hp).1, ?_⟩
  intro later engine' hmaps
  rw [htoken, restoreDisplayText_splice (fun p hp => (hps p hp).2) hlast hmaps, ← hvalue]

/-- The tokens of the demonstration still stand for their values. -/
theorem maps_demoLater {request : ValidatedRequest} {is : List Issue} {l : TokenLedger CounterRandom}
    (hparse : ValidatedRequest.parse mailSerde (demoBody "a@b.co".toList) = .ok request)
    (hkeys : is.map Issue.key = requestedValues Unicode.ascii demoEngine request demoScope 0)
    (hlive : SameLive 0 demoEngine.ledger l)
    (hissues : Issues demoEngine.policy demoScope 0 l is demoLater.ledger) :
    ∀ i ∈ is, demoLater.ledger.Maps demoScope i.token i.value 1 := by
  have hroom : l.HasRoom demoScope 0 (is.map Issue.key ++ []) := by
    rw [List.append_nil, hkeys]
    exact TokenLedger.hasRoom_of_sameLive hlive (hasRoom_demo hparse)
  have hlater : (demoLater.ledger.entries.iter.all fun e => 1 < e.2.expiresAtMs) = true := by
    decide +kernel
  intro i hi
  obtain ⟨e, he, _, hs, _, hv⟩ := (hissues.keeps hroom).2.2 i hi
  have hmem := HashMap.mem_iter.mpr (HashMap.get_eq_some_iff.mp he)
  exact ⟨e, he, hs, of_decide_eq_true (List.all_eq_true.mp hlater _ hmem), hv⟩

/-- The text of the demonstration has one finding, which is tokenized. -/
theorem tokenized_demo : ∃ found,
    demoEngine.scanner.scan Unicode.ascii "a@b.co".toList = .ok found ∧
      ∀ f ∈ resolveOverlaps (actions demoEngine.policy demoEngine.ledger demoScope 0 .rewrite "a@b.co".toList
        found), f.2 = .tokenize := by
  have hscan : (demoEngine.scanner.scan Unicode.ascii "a@b.co".toList).toOption.any (fun found =>
      (resolveOverlaps (actions demoEngine.policy demoEngine.ledger demoScope 0 .rewrite "a@b.co".toList
        found)).all fun f => f.2 = .tokenize) = true := by
    decide +kernel
  cases hs : demoEngine.scanner.scan Unicode.ascii "a@b.co".toList with
  | error e =>
      rw [hs] at hscan
      cases hscan
  | ok found =>
      rw [hs] at hscan
      exact ⟨found, rfl, fun f hf => of_decide_eq_true (List.all_eq_true.mp hscan f hf)⟩

/-- The input of the demonstration is a text for rewriting. -/
theorem mem_leaves_demo {request : ValidatedRequest}
    (hparse : ValidatedRequest.parse mailSerde (demoBody "a@b.co".toList) = .ok request) :
    ([key "input"], "a@b.co".toList) ∈ request.value.leaves := by
  have hvalue : (mailSerde.fromSlice (demoBody "a@b.co".toList)).bind uniqueValue
      = some (demoValue "a@b.co".toList) := by decide +kernel
  have hsame := Option.some.inj ((parse_tracks hparse).2.symm.trans hvalue)
  rw [hsame]
  decide

theorem restoreDisplayText_forwarded_demo : ∃ request, ∃ is : List Issue, ∃ g,
    ValidatedRequest.parse mailSerde (demoBody "a@b.co".toList) = .ok request ∧
      (mailSerde.fromSlice (demoBody demoToken)).bind uniqueValue
        = some (mailSerde.reparse (mapStrings g request.value)) ∧
      is.map Issue.key = requestedValues Unicode.ascii demoEngine request demoScope 0 ∧
      (demoLater.restoreDisplayText demoScope (g [key "input"] "a@b.co".toList) 1).1
        = some "a@b.co".toList := by
  have run : Reaches demoLedger 0 demoEngine.ledger := .start
  obtain ⟨request, is, g, hparse, hbody, hkeys, ⟨l, hlive, hissues⟩, hleaves⟩ :=
    restoreDisplayText_forwarded (rfl : TokenLedger.withRandom HashMap.empty 1 _ = .ok demoLedger) run
      protect_demo
  obtain ⟨found, hs, htokenize⟩ := tokenized_demo
  obtain ⟨ps, last, _, _, hps, hrestore⟩ := hleaves [key "input"] "a@b.co".toList found
    (mem_leaves_demo hparse) .input hs htokenize
  have hlater : (demoEngine.protect Unicode.ascii mailSerde (demoBody "a@b.co".toList) demoScope 0).2
      = demoLater := by rw [demoLater]
  rw [hlater] at hissues
  have hmaps := maps_demoLater hparse hkeys hlive hissues
  exact ⟨request, is, g, hparse, hbody, hkeys, hrestore 1 demoLater fun p hp => hmaps _ (hps p hp)⟩

end PrivacyEngine

end AgentVeil
