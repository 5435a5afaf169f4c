import AgentVeil.Detector.Coverage

/-!
# Custom terms

A custom term is looked for in the normalized text. So an occurrence in the source is found when
normalization keeps it, its neighbours in the normalized text are no word characters, and no earlier
occurrence reaches into it.
-/

namespace AgentVeil

open Rust

/-- The normalized text has the term after `a`, and it stands for the term after `p` of the source. -/
structure ScanView.Keeps (view : ScanView) (p term a b : Str) : Prop where
  text : view.text = a ++ term ++ b
  place : view.combinedSource ⟨len a, len a + len term⟩ = .ok ⟨len p, len p + len term⟩

/-- No word character stands next to what is between `a` and `b`. -/
def Bounded (u : Unicode) (a b : Str) : Prop :=
  a.getLast?.any (isWordCharacter u) = false ∧ b.head?.any (isWordCharacter u) = false

theorem isBoundary_bounded (u : Unicode) {a t b : Str} (h : Bounded u a b) :
    isBoundary u (a ++ t ++ b) (len a) (len a + len t) = .ok true := by
  have hleft : sliceTo? (a ++ t ++ b) (len a) = some a := by
    rw [List.append_assoc, sliceTo?, splitAt?_append]
    rfl
  have hright : sliceFrom? (a ++ t ++ b) (len a + len t) = some b := by
    rw [← len_append, sliceFrom?, splitAt?_append]
    rfl
  simp only [isBoundary, hleft, hright, orPanic, ok_bind, h.1, h.2]
  rfl

/-- A term found by the search and bounded is a finding of a regular view. -/
theorem scanView_term (u : Unicode) {scanner : Scanner} {view : ScanView} {fs : List Finding}
    (h : scanView u scanner (view, false) = .ok fs) {term : Str} (hterm : term ∈ scanner.customTerms)
    {start : Nat} (hstart : start ∈ matchIndices term view.text)
    (hbound : isBoundary u view.text start (start + len term) = .ok true) :
    ∃ f ∈ fs, f.dataClass = .customTerm ∧
      view.combinedSource ⟨start, start + len term⟩ = .ok f.sourceSpan := by
  simp only [scanView, bind_ok_iff, Bool.false_eq_true, ↓reduceIte, Except.ok.injEq] at h
  obtain ⟨_, _, _, _, _, _, _, _, _, _, _, _, configured, hconfigured, rfl⟩ := h
  simp only [scanConfigured, bind_ok_iff, Except.ok.injEq] at hconfigured
  obtain ⟨_, _, terms, hterms, _, _, rfl⟩ := hconfigured
  obtain ⟨bs, hbs, hsub⟩ := mem_gather hterms hterm
  obtain ⟨cs, hcs, hsub'⟩ := mem_gather hbs hstart
  simp only [scanTermAt, hbound, ok_bind, ↓reduceIte, ScanView.finding, bind_ok_iff,
    Except.ok.injEq] at hcs
  obtain ⟨f, ⟨r, hr, rfl⟩, rfl⟩ := hcs
  have hmem := hsub _ (hsub' _ (List.mem_singleton_self _))
  exact ⟨⟨.customTerm, .customTerm, .high, r⟩, by simp [hmem], rfl, hr⟩

/-- Normalization keeps a plain term wherever it stands. -/
theorem keeps_plain (u : Unicode) {p term q : Str} (ht : ScanView.Plain term) {view : ScanView}
    (h : ScanView.normalize u.nfkc (p ++ term ++ q) = .ok view) :
    ∃ a b, view.Keeps p term a b := by
  obtain ⟨a, b, hshows, _, _⟩ := ScanView.normalize_plain u ht h
  rw [← len_of_isAscii ht.ascii] at hshows
  have hpos : 0 < len term := len_pos.mpr ht.ne
  obtain ⟨r, hr, _⟩ := @ScanView.combinedSource_ok _ _ ((ScanView.safe_normalize _ _).2 view h)
    ⟨len a + 0, len a + len term⟩ (by simp only; omega)
    (by rw [hshows.text, len_append, len_append]; simp only; omega)
  have hspan := hshows.combinedSource_unit hpos (Nat.le_refl _) hr
  rw [hspan] at hr
  exact ⟨a, b, hshows.text, hr⟩

/-- Every occurrence of a custom term that normalization keeps, that is bounded there and that no
earlier occurrence reaches into is a finding of its own. Plain terms are always kept. -/
theorem scan_customTerm (u : Unicode) {settings : DetectorSettings}
    (admitted : validateDetectorSettings settings = .ok ()) {term : Str}
    (hterm : term ∈ settings.customTerms) {source : Str} {found : List Finding}
    (h : (Scanner.new settings).scan u source = .ok found) :
    ∃ view, ScanView.normalize u.nfkc source = .ok view ∧
      ∀ p q, source = p ++ term ++ q →
        (ScanView.Plain term → ∃ a b, view.Keeps p term a b) ∧
        ∀ a b, view.Keeps p term a b → Bounded u a b → Apart term a b →
          ∃ f ∈ found, f.dataClass = .customTerm ∧
            f.sourceSpan = ⟨len p, len p + len term⟩ := by
  obtain ⟨views, hviews, hscan⟩ := mem_scan u h
  obtain ⟨root, hroot, hmem, _⟩ := mem_scanViews u hviews
  obtain ⟨fs, hfs, hsame⟩ := hscan _ hmem
  refine ⟨root, hroot, fun p q hsource => ⟨fun ht => ?_, fun a b hkeeps hbound hapart => ?_⟩⟩
  · subst hsource
    exact keeps_plain u ht hroot
  · have hpos := (Scanner.configured_new admitted).terms term hterm
    have hne : term ≠ [] := by
      rintro rfl
      exact Nat.lt_irrefl 0 hpos
    have hstart := mem_matchIndices_of_apart hne hapart
    have hb := isBoundary_bounded u (t := term) hbound
    rw [← hkeeps.text] at hstart hb
    obtain ⟨f, hf, hclass, hspan⟩ := scanView_term u hfs hterm hstart hb
    obtain ⟨g, hg, hfg⟩ := hsame f hf
    rw [hkeeps.place] at hspan
    have hspan := Except.ok.inj hspan
    simp only [sameFinding, Bool.and_eq_true, decide_eq_true_eq] at hfg
    exact ⟨g, hg, hfg.1.2 ▸ hclass, hfg.1.1 ▸ hspan.symm⟩

theorem scan_customTerm_demo : ∃ found,
    (Scanner.new ⟨[], ["abc".toList], []⟩).scan .ascii "an abc.".toList = .ok found ∧
    ∃ f ∈ found, f.dataClass = .customTerm ∧ f.sourceSpan = ⟨3, 6⟩ := by
  have hscan : (Scanner.new ⟨[], ["abc".toList], []⟩).scan .ascii "an abc.".toList
      = .ok [⟨.customTerm, .customTerm, .high, ⟨3, 6⟩⟩] := by decide
  obtain ⟨view, hview, hfound⟩ := scan_customTerm .ascii (by decide) (List.mem_singleton.mpr rfl) hscan
  have hnormal : ScanView.normalize Unicode.ascii.nfkc "an abc.".toList
      = .ok (distinctView "an abc.".toList) := by decide
  obtain rfl := Except.ok.inj (hview.symm.trans hnormal)
  refine ⟨_, hscan, (hfound "an ".toList ".".toList rfl).2 "an ".toList ".".toList
    ⟨rfl, by decide⟩ ⟨by decide, by decide⟩ ?_⟩
  -- Every occurrence before the third character would begin with another letter.
  intro a' b' he hlt
  rcases a' with _ | ⟨_, _ | ⟨_, _ | ⟨_, a'⟩⟩⟩
  · simp at he
  · simp at he
  · simp at he
  · exact absurd hlt (by simp)

/-- Occurrences between other characters that are not found: normalization drops the character
before, drops one of the term, and joins a line after it; and an occurrence that is not bounded hides
the one it overlaps. -/
theorem scan_hiddenTerms :
    (∀ t ∈ ["abc", "a\u200bb", "a-a", "ab\\"],
      validateDetectorSettings ⟨[], [t.toList], []⟩ = .ok ()) ∧
    (Scanner.new ⟨[], ["abc".toList], []⟩).scan .ascii "x\u200babc".toList = .ok [] ∧
    (Scanner.new ⟨[], ["a\u200bb".toList], []⟩).scan .ascii "a\u200bb".toList = .ok [] ∧
    (Scanner.new ⟨[], ["ab\\".toList], []⟩).scan .ascii "ab\\\nc".toList = .ok [] ∧
    (Scanner.new ⟨[], ["a-a".toList], []⟩).scan .ascii "xa-a-a".toList = .ok [] := by
  decide

end AgentVeil
