import AgentVeil.Detector.Lemmas.Findings

/-!
# When scanning panics

The views never panic, and a scan fails as the first view does on which a detector fails.
-/

namespace AgentVeil

open Rust Rust.Regex

variable {source : Str}

theorem safe_scanViews (u : Unicode) (source : Str) :
    Safe (fun views => ∀ v ∈ views, ScanView.MapsTo source v.1) (scanViews u source) :=
  (ScanView.safe_normalize u.nfkc source).bind fun _ hn => (ScanView.safe_composedViews u hn).bind
    fun _ hl => ScanView.safe_withCollapsed hl (by simp)

/-- A view on which no detector fails. -/
def Scans (scanner : Scanner) (view : ScanView × Bool) : Prop :=
  view.2 = false → ¬Splits scanner view.1 ∧ ¬HasBlankHome scanner view.1

theorem finds_scanView_iff (u : Unicode) {scanner : Scanner} (hc : scanner.Configured)
    {view : ScanView × Bool} (hv : view.1.MapsTo source) :
    (∃ fs, scanView u scanner view = .ok fs) ↔ Scans scanner view := by
  obtain ⟨view, secret⟩ := view
  cases secret with
  | true =>
      obtain ⟨fs, hfs, _⟩ := finds_secretView u scanner hv
      exact ⟨fun _ h => Bool.noConfusion h, fun _ => ⟨fs, hfs⟩⟩
  | false =>
      obtain ⟨hpanic, herr, hfinds⟩ := scanView_cases u hc hv
      refine ⟨fun ⟨fs, hfs⟩ _ => ?_, fun h => ?_⟩
      · by_cases hs : Splits scanner view
        · rw [hpanic hs] at hfs; cases hfs
        · by_cases hb : HasBlankHome scanner view
          · rw [herr hs hb] at hfs; cases hfs
          · exact ⟨hs, hb⟩
      · obtain ⟨hs, hb⟩ := h rfl
        obtain ⟨fs, hfs, _⟩ := hfinds hs hb
        exact ⟨fs, hfs⟩

theorem scanView_panics_iff (u : Unicode) {scanner : Scanner} (hc : scanner.Configured)
    {view : ScanView × Bool} (hv : view.1.MapsTo source) :
    scanView u scanner view = .error .panic ↔ view.2 = false ∧ Splits scanner view.1 := by
  obtain ⟨view, secret⟩ := view
  cases secret with
  | true =>
      obtain ⟨fs, hfs, _⟩ := finds_secretView u scanner hv
      rw [hfs]
      exact ⟨nofun, fun h => nomatch h.1⟩
  | false =>
      obtain ⟨hpanic, herr, hfinds⟩ := scanView_cases u hc hv
      refine ⟨fun h => ⟨rfl, ?_⟩, fun h => hpanic h.2⟩
      by_contra hs
      by_cases hb : HasBlankHome scanner view
      · rw [herr hs hb] at h; cases h
      · obtain ⟨fs, hfs, _⟩ := hfinds hs hb
        rw [hfs] at h; cases h

/-- The views of the source, in order, up to the first on which a detector fails, and that one
splits a character. -/
def ReachesSplit (u : Unicode) (scanner : Scanner) (source : Str) : Prop :=
  ∃ views before view after, scanViews u source = .ok views ∧
    views = before ++ (view, false) :: after ∧ (∀ v ∈ before, Scans scanner v) ∧
    Splits scanner view

theorem scan_panics_iff (u : Unicode) {scanner : Scanner} (hc : scanner.Configured) (source : Str) :
    scanner.scan u source = .error .panic ↔ ReachesSplit u scanner source := by
  have hsafe := safe_scanViews u source
  simp only [Scanner.scan, bind_error_iff, reduceCtorEq, and_false, exists_false, or_false,
    gather_error_iff]
  constructor
  · intro h
    rcases h with h | ⟨views, hviews, before, view, after, rfl, hbefore, hpanic⟩
    · exact absurd h hsafe.1
    · have hm := hsafe.2 _ hviews
      obtain ⟨view, secret⟩ := view
      obtain ⟨rfl, hsplit⟩ := (scanView_panics_iff u hc (hm _ (by simp))).mp hpanic
      exact ⟨_, before, view, after, hviews, rfl, fun v hv =>
        (finds_scanView_iff u hc (hm v (List.mem_append_left _ hv))).mp (hbefore v hv), hsplit⟩
  · rintro ⟨views, before, view, after, hviews, rfl, hbefore, hs⟩
    have hm := hsafe.2 _ hviews
    exact .inr ⟨_, hviews, before, (view, false), after, rfl,
      fun v hv => (finds_scanView_iff u hc (hm v (List.mem_append_left _ hv))).mpr (hbefore v hv),
      (scanView_panics_iff u hc (hm _ (by simp))).mpr ⟨rfl, hs⟩⟩

/-- A scan does not panic exactly when it reaches no view that splits a character. -/
theorem scan_ne_panic_iff (u : Unicode) {settings : DetectorSettings}
    (hs : validateDetectorSettings settings = .ok ()) (source : Str) :
    (Scanner.new settings).scan u source ≠ .error .panic ↔
      ¬ReachesSplit u (Scanner.new settings) source :=
  not_congr (scan_panics_iff u (Scanner.configured_new hs) source)

/-- A phone number 34 bytes into a text that begins with an arrow. -/
def arrowText : Str := '→' :: List.replicate 31 'x' ++ "212-555-0134".toList

/-- The label window starts at the third byte of the arrow. -/
theorem scan_arrowText : validateDetectorSettings ⟨[], [], []⟩ = .ok () ∧
    (Scanner.new ⟨[], [], []⟩).scan Unicode.ascii arrowText = .error .panic := by
  decide +kernel

/-- A configured suffix behind an arrow: next to the host name the arrow is split, with a space between
them it is not. -/
theorem scan_ne_panic_demo :
    ReachesSplit Unicode.ascii (Scanner.new ⟨[".internal".toList], [], []⟩) ('→' :: "db.internal".toList) ∧
      ¬ReachesSplit Unicode.ascii (Scanner.new ⟨[".internal".toList], [], []⟩)
        ('→' :: " db.internal".toList) := by
  have hvalid : validateDetectorSettings ⟨[".internal".toList], [], []⟩ = .ok () := by decide
  constructor
  · by_contra hsplit
    exact (scan_ne_panic_iff Unicode.ascii hvalid _).mpr hsplit (by decide +kernel)
  · exact (scan_ne_panic_iff Unicode.ascii hvalid _).mp (by decide +kernel)

/-- Every finding of a scan has a range of the source. -/
theorem scan_sourceRange (u : Unicode) {scanner : Scanner} (hc : scanner.Configured)
    {fs : List Finding} (h : scanner.scan u source = .ok fs) :
    ∀ f ∈ fs, SourceRange source f.sourceSpan := by
  simp only [Scanner.scan, bind_ok_iff, Except.ok.injEq] at h
  obtain ⟨views, hviews, found, hfound, rfl⟩ := h
  have hm := (safe_scanViews u source).2 _ hviews
  intro f hf
  obtain ⟨view, hview, gs, hgs, hf⟩ := mem_of_gather hfound (mem_sortBy.mp (mem_of_mem_dedupBy hf))
  obtain ⟨view, secret⟩ := view
  have hfinds : Finds source (scanView u scanner (view, secret)) := by
    cases secret with
    | true => exact finds_secretView u scanner (hm _ hview)
    | false =>
        obtain ⟨hs, hb⟩ := (finds_scanView_iff u hc (hm _ hview)).mp ⟨gs, hgs⟩ rfl
        exact (scanView_cases u hc (hm _ hview)).2.2 hs hb
  obtain ⟨gs', hgs', hr⟩ := hfinds
  rw [hgs] at hgs'
  cases hgs'
  exact hr f hf

end AgentVeil
