import AgentVeil.Detector.Lemmas.Views
import AgentVeil.Detector.Lemmas.PrivateKeys
import AgentVeil.Detector.Scanner

/-!
# What each detector does on a view

Only two detectors can panic: the label window of a phone number and the start of a hostname may
split a character. Only one can fail: a home prefix that begins with white space gives no range.
Every finding has a range of the source.
-/

namespace AgentVeil

open Rust Rust.Regex

variable {source : Str} {view : ScanView}

/-! ## Matches -/

theorem part_range {m : Part} {text : Str} (h : text = m.before.reverse ++ m.text ++ m.after)
    (hpos : 0 < m.text.length) :
    m.range.start < m.range.stop ∧ m.range.stop ≤ len text ∧
      isCharBoundary text m.start = true := by
  have hlen : 0 < len m.text := Nat.lt_of_lt_of_le hpos (length_le_len _)
  refine ⟨?_, ?_, ?_⟩
  · simp only [Part.range]; omega
  · rw [h]; simp [Part.range, Part.start]
  · rw [h, List.append_assoc, Part.start, ← len_reverse]
    exact isCharBoundary_append _ _

/-- Every match of a pattern that matches no empty text gives a finding. -/
theorem match_finding_ok (hv : view.MapsTo source) {r : Regex} (hr : 0 < minLength r) {m : Match}
    (hm : m ∈ findIter r view.text) (c : DataClass) (d : DetectorId) (k : Confidence) :
    ∃ f, view.finding m.range c d k = .ok f ∧ SourceRange source f.sourceSpan := by
  obtain ⟨hs, hd⟩ := mem_findIter hm
  obtain ⟨hlt, hle, _⟩ := part_range hs (Nat.lt_of_lt_of_le hr hd.minLength_le)
  exact ScanView.finding_ok hv hlt hle c d k

theorem minLength_databaseUrlPattern (u : Unicode) : 0 < minLength (databaseUrlPattern u) := by
  simp only [databaseUrlPattern, cat, plus, minLength]
  omega

theorem minLength_pattern (u : Unicode) :
    ∀ p ∈ patternDetectors u, 0 < minLength p.regex := by
  simp only [patternDetectors, List.forall_mem_cons, List.not_mem_nil, false_implies, implies_true,
    and_true]
  exact ⟨by decide, by decide, by decide, by decide,
    by decide, by decide, by decide, minLength_databaseUrlPattern u,
    by decide, by decide⟩

/-- The findings that a detector gives, all with a range of the source. -/
def Finds (source : Str) (x : Fallible DetectorError (List Finding)) : Prop :=
  ∃ fs, x = .ok fs ∧ ∀ f ∈ fs, SourceRange source f.sourceSpan

theorem finds_ok {fs : List Finding} (h : ∀ f ∈ fs, SourceRange source f.sourceSpan) :
    Finds source (.ok fs) := ⟨fs, rfl, h⟩

theorem finds_nil : Finds source (.ok []) := finds_ok (by simp)

theorem finds_one {x : Fallible DetectorError Finding}
    (h : ∃ f, x = .ok f ∧ SourceRange source f.sourceSpan) :
    Finds source (x >>= fun f => .ok [f]) := by
  obtain ⟨f, rfl, hf⟩ := h
  exact finds_ok (by simpa using hf)

theorem Finds.gather {α : Type} {f : α → Fallible DetectorError (List Finding)} {l : List α}
    (h : ∀ a ∈ l, Finds source (f a)) : Finds source (gather f l) := by
  induction l with
  | nil => exact finds_nil
  | cons a l ih =>
      rw [List.forall_mem_cons] at h
      obtain ⟨fs, hfs, hr⟩ := h.1
      obtain ⟨gs, hgs, hr'⟩ := ih h.2
      refine ⟨fs ++ gs, by simp only [Rust.gather, hfs, hgs, ok_bind], ?_⟩
      intro f hf
      rcases List.mem_append.mp hf with hf | hf
      · exact hr f hf
      · exact hr' f hf

/-- The detector gives findings, except under one condition, where it fails. -/
structure FindsUnless (source : Str) (bad : Prop) (e : Failure DetectorError)
    (x : Fallible DetectorError (List Finding)) : Prop where
  finds : ¬bad → Finds source x
  fails : bad → x = .error e

theorem FindsUnless.gather {α : Type} {f : α → Fallible DetectorError (List Finding)} {l : List α}
    {bad : α → Prop} {e : Failure DetectorError}
    (h : ∀ a ∈ l, FindsUnless source (bad a) e (f a)) :
    FindsUnless source (∃ a ∈ l, bad a) e (Rust.gather f l) := by
  induction l with
  | nil => exact ⟨fun _ => finds_nil, fun ⟨_, ha, _⟩ => nomatch ha⟩
  | cons a l ih =>
      obtain ⟨ha, hl⟩ := List.forall_mem_cons.mp h
      have ih := ih hl
      refine ⟨fun hn => Finds.gather fun b hb => (h b hb).finds fun hbad => hn ⟨b, hb, hbad⟩, ?_⟩
      intro hex
      by_cases hbad : bad a
      · simp only [Rust.gather, ha.fails hbad, error_bind]
      · obtain ⟨fs, hfs, _⟩ := ha.finds hbad
        have hrest : ∃ b ∈ l, bad b := by
          obtain ⟨b, hb, hb'⟩ := hex
          cases hb with
          | head => exact absurd hb' hbad
          | tail _ hb => exact ⟨b, hb, hb'⟩
        simp only [Rust.gather, hfs, ih.fails hrest, ok_bind, error_bind]

theorem finds_scanPattern (hv : view.MapsTo source) {p : PatternDetector}
    (hp : 0 < minLength p.regex) : Finds source (scanPattern p view) :=
  Finds.gather fun _ hm => finds_one (match_finding_ok hv hp hm _ _ _)

theorem finds_scanEmail (hv : view.MapsTo source) : Finds source (scanEmail view) :=
  finds_scanPattern hv (by decide)

theorem finds_scanPrivateIpv4 (hv : view.MapsTo source) : Finds source (scanPrivateIpv4 view) := by
  refine Finds.gather fun m hm => ?_
  split
  · exact finds_one (match_finding_ok hv (by decide) hm _ _ _)
  · exact finds_nil

theorem finds_scanEnvAssignments (hv : view.MapsTo source) :
    Finds source (scanEnvAssignments view) := by
  have hgroups : GroupsAtLeast 1 envAssignmentPattern :=
    by decide
  refine Finds.gather fun m hm => ?_
  split
  · exact finds_nil
  · rename_i candidate hg
    split
    · exact finds_nil
    · obtain ⟨hs, _⟩ := mem_findIter hm
      obtain ⟨hg, hpos⟩ := group_of_mem_findIter hgroups hm (Option.mem_def.mpr hg)
      obtain ⟨hlt, hle, _⟩ := part_range hg hpos
      have hslice : sliceFrom? view.text m.start = some (m.text ++ m.after) := by
        rw [hs, List.append_assoc, Part.start, ← len_reverse, sliceFrom?, splitAt?_append]; rfl
      rw [hslice]
      exact finds_one (ScanView.finding_ok hv hlt hle _ _ _)

/-! ## Private keys -/

theorem finds_scanPrivateKeys (hv : view.MapsTo source) : Finds source (scanPrivateKeys view) := by
  obtain ⟨ranges, hranges, hscan⟩ := scanPrivateKeys_reports view.text
  rw [hscan view rfl]
  refine Finds.gather fun r hr => ?_
  obtain ⟨_, hlt, hle⟩ := hranges.within r hr
  exact finds_one (ScanView.finding_ok hv hlt hle _ _ _)

/-! ## Phone numbers -/

/-- The window before some phone number starts inside a character. -/
def SplitsLabelWindow (view : ScanView) : Prop :=
  ∃ m ∈ findIter phonePattern view.text, isCharBoundary view.text (m.start - 32) = false

theorem findsUnless_scanPhone (hv : view.MapsTo source) :
    FindsUnless source (SplitsLabelWindow view) .panic (scanPhone view) := by
  refine FindsUnless.gather fun m hm => ⟨fun hb => ?_, fun hb => ?_⟩
  · obtain ⟨hs, hd⟩ := mem_findIter hm
    obtain ⟨_, _, hstart⟩ := part_range hs (Nat.lt_of_lt_of_le (by decide) hd.minLength_le)
    obtain ⟨context, hcontext⟩ := @get?_isSome_of_boundary view.text ⟨m.start - 32, m.start⟩
      (by simpa using hb) hstart (Nat.sub_le _ _)
    simp only [hcontext, orPanic, ok_bind]
    split
    · exact finds_one (match_finding_ok hv (by decide) hm _ _ _)
    · exact finds_nil
  · have hnone : get? view.text ⟨m.start - 32, m.start⟩ = none := by
      rw [isCharBoundary, Option.isSome_eq_false_iff, Option.isNone_iff_eq_none] at hb
      simp only [get?, sliceFrom?, hb, Option.map_none, Option.bind_none, ite_self]
    rw [hnone]; rfl

/-! ## Configured terms -/

theorem isBoundary_ok (u : Unicode) {s : Str} {i j : Nat} (hi : isCharBoundary s i = true)
    (hj : isCharBoundary s j = true) : ∃ b, isBoundary u s i j = .ok b := by
  obtain ⟨p, hp⟩ := Option.isSome_iff_exists.mp hi
  obtain ⟨q, hq⟩ := Option.isSome_iff_exists.mp hj
  simp only [isBoundary, sliceTo?, sliceFrom?, hp, hq, Option.map_some, orPanic, ok_bind]
  exact ⟨_, rfl⟩

/-- The last character that no hostname can hold is not ASCII. -/
def WideBefore (before : Str) : Prop :=
  ∃ a c b, before = a ++ c :: b ∧ isAscii c = false ∧ ∀ d ∈ b, isHostnameCharacter d = true

/-- The hostname before some suffix starts inside a character. -/
def SplitsHostname (scanner : Scanner) (view : ScanView) : Prop :=
  ∃ suffix ∈ scanner.internalHostnameSuffixes,
    ∃ start ∈ matchIndices suffix (view.text.map toAsciiLowercase),
      ∃ before, sliceTo? view.text start = some before ∧ WideBefore before

theorem isHostnameCharacter_wide {c : Char} (h : isAscii c = false) :
    isHostnameCharacter c = false := by
  by_contra hc
  simp only [isHostnameCharacter, isAsciiAlphanumeric, isAsciiDigit, isAsciiUppercase,
    isAsciiLowercase, Bool.not_eq_false, Bool.or_eq_true, Bool.and_eq_true, decide_eq_true_eq] at hc
  have hle : c.toNat ≤ 127 := by
    rcases hc with ((((_ | _) | _) | rfl) | rfl)
    · omega
    · omega
    · omega
    · decide
    · decide
  simp only [isAscii, decide_eq_false_iff_not] at h
  exact h hle

theorem findsUnless_scanSuffixAt (u : Unicode) (hv : view.MapsTo source) {suffix : Str}
    (hsuffix : 0 < len suffix) {start : Nat}
    (hstart : start ∈ matchIndices suffix (view.text.map toAsciiLowercase)) :
    FindsUnless source (∃ before, sliceTo? view.text start = some before ∧ WideBefore before)
      .panic (scanSuffixAt u view suffix start) := by
  obtain ⟨a, b, hlower, rfl⟩ := mem_matchIndices hstart
  obtain ⟨pt, q, htext, hpt, rfl⟩ := List.map_eq_append_iff.mp hlower
  obtain ⟨p, t, rfl, rfl, ht⟩ := List.map_eq_append_iff.mp hpt
  have hlen : len t = len suffix := by rw [← ht, len_map_toAsciiLowercase]
  rw [len_map_toAsciiLowercase]
  have hslice : sliceTo? view.text (len p) = some p := by
    rw [htext, List.append_assoc, sliceTo?, splitAt?_append]; rfl
  have hstop : isCharBoundary view.text (len p + len suffix) = true := by
    rw [htext, ← hlen, ← len_append]; exact isCharBoundary_append _ _
  have hle := le_len_of_isCharBoundary hstop
  -- a hostname that starts at a boundary is examined without a panic
  have hat : ∀ h, isCharBoundary view.text h = true → h ≤ len p →
      Finds source (if h = len p then .ok [] else do
        if ← isBoundary u view.text h (len p + len suffix) then do
          let f ← view.finding ⟨h, len p + len suffix⟩ .internalHostname .internalHostname .high
          .ok [f]
        else .ok []) := by
    intro h hb hlt
    split
    · exact finds_nil
    · obtain ⟨r, hr⟩ := isBoundary_ok u hb hstop
      simp only [hr, ok_bind]
      split
      · exact finds_one (ScanView.finding_ok hv (by simp only; omega) hle _ _ _)
      · exact finds_nil
  simp only [scanSuffixAt, hslice, orPanic, ok_bind]
  constructor
  · intro hn
    cases hr : rfindChar (fun c => !isHostnameCharacter c) p with
    | none => exact hat 0 (isCharBoundary_zero _) (Nat.zero_le _)
    | some index =>
        obtain ⟨a, c, b, rfl, rfl, hc, hb⟩ := rfindChar_eq_some hr
        have hascii : isAscii c = true := by
          by_contra hw
          exact hn ⟨_, rfl, a, c, b, rfl, by simpa using hw, by simpa using hb⟩
        refine hat (len a + 1) ?_ (by simp [utf8Size_of_isAscii hascii])
        rw [htext, ← utf8Size_of_isAscii hascii]
        simpa using isCharBoundary_append (a ++ [c]) (b ++ t ++ q)
  · rintro ⟨before, hbefore, hwide⟩
    obtain rfl := Option.some.inj hbefore
    obtain ⟨a, c, b, rfl, hc, hb⟩ := hwide
    rw [rfindChar_append (by simp [isHostnameCharacter_wide hc]) (by simpa using hb)]
    have hne : len a + 1 ≠ len (a ++ c :: b) := by
      intro he
      have := not_isCharBoundary_wide (a := a) (b := b) hc
      rw [he, isCharBoundary_len] at this
      cases this
    have hsplit : splitAt? view.text (len a + 1) = none := by
      have := not_isCharBoundary_wide (a := a) (b := b ++ t ++ q) hc
      rw [isCharBoundary, Option.isSome_eq_false_iff, Option.isNone_iff_eq_none] at this
      rw [htext, ← this]; simp
    simp only [hne, ↓reduceIte, isBoundary, sliceTo?, hsplit, Option.map_none, orPanic, error_bind]

theorem finds_scanTermAt (u : Unicode) (hv : view.MapsTo source) {term : Str}
    (hterm : 0 < len term) {start : Nat} (hstart : start ∈ matchIndices term view.text) :
    Finds source (scanTermAt u view term start) := by
  obtain ⟨p, q, htext, rfl⟩ := mem_matchIndices hstart
  have hbefore : isCharBoundary view.text (len p) = true := by
    rw [htext, List.append_assoc]; exact isCharBoundary_append _ _
  have hstop : isCharBoundary view.text (len p + len term) = true := by
    rw [htext, ← len_append]; exact isCharBoundary_append _ _
  obtain ⟨r, hr⟩ := isBoundary_ok u hbefore hstop
  simp only [scanTermAt, hr, ok_bind]
  split
  · exact finds_one (ScanView.finding_ok hv (by simp only; omega)
      (le_len_of_isCharBoundary hstop) _ _ _)
  · exact finds_nil

/-- A home prefix that begins with white space occurs, so that its path has no characters. -/
def HasBlankHome (scanner : Scanner) (view : ScanView) : Prop :=
  ∃ home ∈ scanner.homePrefixes, ∃ start ∈ matchIndices home view.text,
    home.head?.any isWhitespace = true

theorem findsUnless_scanHomeAt (hv : view.MapsTo source) {home : Str} (hhome : 0 < len home)
    {start : Nat} (hstart : start ∈ matchIndices home view.text) :
    FindsUnless source (home.head?.any isWhitespace = true) (.err .invalidSourceMap)
      (scanHomeAt view start) := by
  obtain ⟨p, q, htext, rfl⟩ := mem_matchIndices hstart
  cases home with
  | nil => simp at hhome
  | cons c home =>
      have hslice : sliceFrom? view.text (len p) = some (c :: (home ++ q)) := by
        rw [htext, List.append_assoc, sliceFrom?, splitAt?_append]; rfl
      have hlen : len view.text = len p + len (c :: (home ++ q)) := by
        rw [htext, List.append_assoc, len_append]; rfl
      simp only [scanHomeAt, hslice, orPanic, List.head?_cons, Option.any_some]
      refine ⟨fun hn => ?_, fun hb => ?_⟩
      · refine finds_one (ScanView.finding_ok hv ?_ ?_ _ _ _)
        · cases hf : findChar isWhitespace (c :: (home ++ q)) with
          | none =>
              have := c.utf8Size_pos
              simp only [hlen, len_cons]; omega
          | some relative =>
              obtain ⟨a, d, b, hs, rfl, hd, _⟩ := findChar_eq_some hf
              cases a with
              | nil => obtain ⟨rfl, _⟩ := List.cons.inj hs; exact absurd hd hn
              | cons x a =>
                  have := x.utf8Size_pos
                  simp only [len_cons]; omega
        · cases hf : findChar isWhitespace (c :: (home ++ q)) with
          | none => exact Nat.le_refl _
          | some relative =>
              obtain ⟨a, d, b, hs, rfl, _, _⟩ := findChar_eq_some hf
              rw [hlen, hs, len_append]
              simp only; omega
      · have hf : findChar isWhitespace (c :: (home ++ q)) = some 0 := by
          simp only [findChar, hb, ↓reduceIte]
        simp [hf, bind, Except.bind, ScanView.finding, ScanView.combinedSource, err]

theorem finds_scanTerms (u : Unicode) {scanner : Scanner} (hv : view.MapsTo source)
    (hterms : ∀ term ∈ scanner.customTerms, 0 < len term) :
    Finds source (gather (fun term => gather (scanTermAt u view term) (matchIndices term view.text))
      scanner.customTerms) :=
  Finds.gather fun term ht => Finds.gather fun _ hs => finds_scanTermAt u hv (hterms term ht) hs

/-- Every configured term has characters, as the policy's validation checks. -/
structure Scanner.Configured (scanner : Scanner) : Prop where
  suffixes : ∀ suffix ∈ scanner.internalHostnameSuffixes, 0 < len suffix
  terms : ∀ term ∈ scanner.customTerms, 0 < len term
  homes : ∀ home ∈ scanner.homePrefixes, 0 < len home

theorem Scanner.configured_new {settings : DetectorSettings}
    (h : validateDetectorSettings settings = .ok ()) : (Scanner.new settings).Configured := by
  simp only [validateDetectorSettings, check_bind_ok_iff, forM_ok_iff, ensure_ok_iff] at h
  have hpos : ∀ t ∈ settings.internalHostnameSuffixes ++ settings.customTerms
      ++ settings.homePrefixes, 0 < len t := fun t ht => by
    have := h.2 t ht
    omega
  refine ⟨fun suffix hs => ?_,
    fun term ht => hpos term (List.mem_append_left _ (List.mem_append_right _ ht)),
    fun home hh => hpos home (List.mem_append_right _ hh)⟩
  obtain ⟨t, ht, rfl⟩ := List.mem_map.mp hs
  rw [len_map_toAsciiLowercase]
  exact hpos t (by simp [ht])

/-! ## Views -/

/-- Some detector slices the view inside a character. -/
def Splits (scanner : Scanner) (view : ScanView) : Prop :=
  SplitsLabelWindow view ∨ SplitsHostname scanner view

theorem findsUnless_scanSuffixes (u : Unicode) {scanner : Scanner} (hc : scanner.Configured)
    (hv : view.MapsTo source) :
    FindsUnless source (SplitsHostname scanner view) .panic
      (gather (fun suffix => gather (scanSuffixAt u view suffix)
        (matchIndices suffix (view.text.map toAsciiLowercase)))
        scanner.internalHostnameSuffixes) :=
  FindsUnless.gather fun suffix hs => FindsUnless.gather fun _ hstart =>
    findsUnless_scanSuffixAt u hv (hc.suffixes suffix hs) hstart

theorem findsUnless_scanHomes {scanner : Scanner} (hc : scanner.Configured)
    (hv : view.MapsTo source) :
    FindsUnless source (HasBlankHome scanner view) (.err .invalidSourceMap)
      (gather (fun home => gather (scanHomeAt view) (matchIndices home view.text))
        scanner.homePrefixes) :=
  FindsUnless.gather fun home hh => FindsUnless.gather fun _ hstart =>
    findsUnless_scanHomeAt hv (hc.homes home hh) hstart

/-- What the detectors that look at every view find. -/
theorem finds_scanSecrets (u : Unicode) (hv : view.MapsTo source) (secret : Bool) :
    Finds source (gather (scanPattern · view) ((patternDetectors u).filter fun pattern =>
      !(secret && !pattern.secretOnly && pattern.dataClass ≠ .tokenNamespace))) :=
  Finds.gather fun p hp =>
    finds_scanPattern hv (minLength_pattern u p (List.mem_filter.mp hp).1)

theorem finds_append {fs gs : List Finding} (hf : ∀ f ∈ fs, SourceRange source f.sourceSpan)
    (hg : ∀ f ∈ gs, SourceRange source f.sourceSpan) :
    ∀ f ∈ fs ++ gs, SourceRange source f.sourceSpan := fun f h =>
  (List.mem_append.mp h).elim (hf f) (hg f)

/-- The three outcomes of a regular view. -/
theorem scanConfigured_cases (u : Unicode) {scanner : Scanner} (hc : scanner.Configured)
    (hv : view.MapsTo source) :
    (SplitsHostname scanner view → scanConfigured u scanner view = .error .panic) ∧
    (¬SplitsHostname scanner view → HasBlankHome scanner view →
      scanConfigured u scanner view = err .invalidSourceMap) ∧
    (¬SplitsHostname scanner view → ¬HasBlankHome scanner view →
      Finds source (scanConfigured u scanner view)) := by
  have hsuffixes := findsUnless_scanSuffixes u hc hv
  obtain ⟨ts, hts, hrt⟩ := finds_scanTerms u hv hc.terms
  have hhomes := findsUnless_scanHomes hc hv
  unfold scanConfigured
  refine ⟨fun hs => ?_, fun hs hb => ?_, fun hs hb => ?_⟩
  · simp only [hsuffixes.fails hs, error_bind]
  · obtain ⟨fs, hfs, _⟩ := hsuffixes.finds hs
    simp only [hfs, hts, hhomes.fails hb, ok_bind, error_bind]
    rfl
  · obtain ⟨fs, hfs, hrf⟩ := hsuffixes.finds hs
    obtain ⟨gs, hgs, hrg⟩ := hhomes.finds hb
    simp only [hfs, hts, hgs, ok_bind]
    exact finds_ok (finds_append (finds_append hrf hrt) hrg)

theorem finds_secretView (u : Unicode) (scanner : Scanner) (hv : view.MapsTo source) :
    Finds source (scanView u scanner (view, true)) := by
  obtain ⟨ps, hps, hrp⟩ := finds_scanSecrets u hv true
  obtain ⟨ks, hks, hrk⟩ := finds_scanPrivateKeys hv
  obtain ⟨as, has, hra⟩ := finds_scanEnvAssignments hv
  simp only [scanView, hps, hks, has, ok_bind, ↓reduceIte]
  exact finds_ok (finds_append (finds_append hrp hrk) hra)

theorem scanView_cases (u : Unicode) {scanner : Scanner} (hc : scanner.Configured)
    (hv : view.MapsTo source) :
    (Splits scanner view → scanView u scanner (view, false) = .error .panic) ∧
    (¬Splits scanner view → HasBlankHome scanner view →
      scanView u scanner (view, false) = err .invalidSourceMap) ∧
    (¬Splits scanner view → ¬HasBlankHome scanner view →
      Finds source (scanView u scanner (view, false))) := by
  obtain ⟨ps, hps, hrp⟩ := finds_scanSecrets u hv false
  obtain ⟨ks, hks, hrk⟩ := finds_scanPrivateKeys hv
  obtain ⟨as, has, hra⟩ := finds_scanEnvAssignments hv
  obtain ⟨es, hes, hre⟩ := finds_scanEmail hv
  obtain ⟨ds, hds, hrd⟩ := finds_scanPrivateIpv4 hv
  have hphone := findsUnless_scanPhone hv
  obtain ⟨hpanic, herr, hfinds⟩ := scanConfigured_cases u hc hv
  simp only [scanView, hps, hks, has, hes, hds, ok_bind, Bool.false_eq_true, ↓reduceIte]
  by_cases hw : SplitsLabelWindow view
  · refine ⟨fun _ => by simp only [hphone.fails hw, error_bind], fun hs => ?_, fun hs => ?_⟩
    · exact absurd (.inl hw) hs
    · exact absurd (.inl hw) hs
  · obtain ⟨hs, hhs, hrh⟩ := hphone.finds hw
    simp only [hhs, ok_bind]
    refine ⟨fun h => ?_, fun h hb => ?_, fun h hb => ?_⟩
    · simp only [hpanic (h.resolve_left hw), error_bind]
    · rw [herr (fun hn => h (.inr hn)) hb]; rfl
    · obtain ⟨cs, hcs, hrc⟩ := hfinds (fun hn => h (.inr hn)) hb
      simp only [hcs, ok_bind]
      exact finds_ok (finds_append (finds_append (finds_append (finds_append (finds_append
        (finds_append hrp hrk) hra) hre) hrd) hrh) hrc)

end AgentVeil
