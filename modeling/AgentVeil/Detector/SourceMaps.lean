import AgentVeil.Detector.Lemmas.Passes

/-!
# Source maps

Every view that the transforms reach maps each byte to a range of the source, and the ranges begin and
end in the order of the bytes. So no transform fails over its map.
-/

namespace AgentVeil

open Rust

/-- The first range begins and ends no later than the second. -/
def InOrder (a b : Span) : Prop := a.start ≤ b.start ∧ a.stop ≤ b.stop

theorem InOrder.refl (a : Span) : InOrder a a := ⟨Nat.le_refl _, Nat.le_refl _⟩

theorem InOrder.trans {a b c : Span} (h : InOrder a b) (h' : InOrder b c) : InOrder a c :=
  ⟨Nat.le_trans h.1 h'.1, Nat.le_trans h.2 h'.2⟩

/-- A valid source map: one range of the source for each byte, in order. -/
structure ScanView.Tracks (source : Str) (view : ScanView) : Prop where
  mapsTo : view.MapsTo source
  ordered : view.sourceByByte.Pairwise InOrder

namespace ScanView

variable {source : Str} {view : ScanView} {rule : ByteRule}

/-! ## Ranges of a view -/

theorem Tracks.inOrder (hv : view.Tracks source) {i j : Nat} {a b : Span} (hle : i ≤ j)
    (ha : view.sourceByByte[i]? = some a) (hb : view.sourceByByte[j]? = some b) : InOrder a b := by
  obtain ⟨hi, rfl⟩ := List.getElem?_eq_some_iff.mp ha
  obtain ⟨hj, rfl⟩ := List.getElem?_eq_some_iff.mp hb
  rcases Nat.lt_or_eq_of_le hle with hlt | rfl
  · exact List.pairwise_iff_getElem.mp hv.ordered i j hi hj hlt
  · exact InOrder.refl _

/-- The source of a range goes from the source of its first byte to that of its last. -/
theorem Tracks.combinedSource_eq (hv : view.Tracks source) {span : Span}
    (hlt : span.start < span.stop) (hle : span.stop ≤ len view.text) :
    ∃ a b, view.sourceByByte[span.start]? = some a ∧ view.sourceByByte[span.stop - 1]? = some b ∧
      view.combinedSource span = .ok ⟨a.start, b.stop⟩ := by
  have hlen := hv.mapsTo.length
  obtain ⟨r, hr, _⟩ := combinedSource_ok hv.mapsTo hlt hle
  obtain ⟨a, ha, hra, _⟩ := combinedSource_covers hr (Nat.le_refl _) hlt
  obtain ⟨b, hb, _, hrb⟩ := combinedSource_covers hr
    (by omega : span.start ≤ span.stop - 1) (by omega)
  obtain ⟨hstart, hstop⟩ := @combinedSource_within _ _ _ hr a.start b.stop fun k m h₁ h₂ hm =>
    ⟨(hv.inOrder h₁ ha hm).1, (hv.inOrder (by omega) hm hb).2⟩
  have hr' : r = ⟨a.start, b.stop⟩ := by
    obtain ⟨start, stop⟩ := r
    simp only [Span.mk.injEq] at *
    omega
  exact ⟨a, b, ha, hb, hr' ▸ hr⟩

theorem Tracks.inOrder_combinedSource (hv : view.Tracks source) {s s' r r' : Span}
    (hs : view.combinedSource s = .ok r) (hs' : view.combinedSource s' = .ok r')
    (hstart : s.start ≤ s'.start) (hstop : s.stop ≤ s'.stop) : InOrder r r' := by
  have hlen := hv.mapsTo.length
  obtain ⟨hlt, hle⟩ := combinedSource_bounds hs
  obtain ⟨hlt', hle'⟩ := combinedSource_bounds hs'
  obtain ⟨a, b, ha, hb, hc⟩ := hv.combinedSource_eq hlt (by omega)
  obtain ⟨a', b', ha', hb', hc'⟩ := hv.combinedSource_eq hlt' (by omega)
  rw [hs] at hc
  rw [hs'] at hc'
  cases hc
  cases hc'
  exact ⟨(hv.inOrder hstart ha ha').1, (hv.inOrder (by omega) hb hb').2⟩

/-! ## Passes -/

/-- A pass from `index` gives ranges in order, none before the bytes already past. -/
theorem Tracks.ordered_rewriteFrom (hv : view.Tracks source) {skip index : Nat}
    {prev : Option UInt8} {bs : List UInt8} {output : Bool × List (UInt8 × Span)}
    (hfits : rule.Fits) (h : view.rewriteFrom rule skip prev index bs = .ok output) :
    (output.2.map Prod.snd).Pairwise InOrder ∧
      ∀ r ∈ output.2.map Prod.snd, ∀ k a, k ≤ index + skip → view.sourceByByte[k]? = some a →
        InOrder a r := by
  induction bs generalizing skip prev index output with
  | nil =>
      cases skip with
      | zero => cases h; simp
      | succ skip => cases h; simp
  | cons b bs ih =>
      cases skip with
      | succ skip =>
          obtain ⟨hord, hafter⟩ := ih h
          exact ⟨hord, fun r hr k a hk => hafter r hr k a (by omega)⟩
      | zero =>
          simp only [rewriteFrom] at h
          split at h
          · rename_i o n hrule
            simp only [bind_ok_iff, Except.ok.injEq] at h
            obtain ⟨changed, hchanged, tail, htail, rfl⟩ := h
            obtain ⟨hord, hafter⟩ := ih htail
            have hpos := (hfits _ _ _ _ hrule).1
            unfold replaced at hchanged
            split at hchanged
            · cases hchanged
              exact ⟨hord, fun r hr k a hk => hafter r hr k a (by omega)⟩
            · obtain ⟨c, hc, rfl⟩ := map_ok_iff.mp hchanged
              obtain ⟨hlt, hle⟩ := combinedSource_bounds hc
              simp only at hlt hle
              obtain ⟨a₁, a₂, h₁, h₂, hc'⟩ :=
                @Tracks.combinedSource_eq _ _ hv ⟨index, index + n⟩ hlt (by
                  rw [← hv.mapsTo.length]; exact hle)
              rw [hc] at hc'
              cases hc'
              simp only at h₁ h₂
              have hsame : ∀ r ∈ (o.map (·, (⟨a₁.start, a₂.stop⟩ : Span))).map Prod.snd,
                  r = ⟨a₁.start, a₂.stop⟩ := by simp
              rw [List.map_append]
              refine ⟨List.pairwise_append.mpr ⟨?_, hord, ?_⟩, ?_⟩
              · exact List.pairwise_of_forall_mem_list fun r hr r' hr' => by
                  rw [hsame r hr, hsame r' hr']
                  exact InOrder.refl _
              · intro r hr r' hr'
                rw [hsame r hr]
                -- what follows lies after the last byte of the change
                exact ⟨(hafter r' hr' index a₁ (by omega) h₁).1,
                  (hafter r' hr' _ a₂ (by omega) h₂).2⟩
              · intro r hr k a hk hka
                rcases List.mem_append.mp hr with hr | hr
                · rw [hsame r hr]
                  exact ⟨(hv.inOrder hk hka h₁).1, (hv.inOrder (by omega) hka h₂).2⟩
                · exact hafter r hr k a (by omega) hka
          · simp only [bind_ok_iff, orPanic_ok_iff, Except.ok.injEq] at h
            obtain ⟨s, hs, tail, htail, rfl⟩ := h
            obtain ⟨hord, hafter⟩ := ih htail
            refine ⟨List.pairwise_cons.mpr ⟨fun r hr => hafter r hr index s (by omega) hs, hord⟩, ?_⟩
            intro r hr k a hk hka
            rcases List.mem_cons.mp hr with rfl | hr
            · exact hv.inOrder hk hka hs
            · exact hafter r hr k a (by omega) hka

theorem Tracks.fromBytes (hv : view.Tracks source) (hfits : rule.Fits)
    {output : Bool × List (UInt8 × Span)} (hout : view.rewriteBytes rule = .ok output)
    {w : ScanView}
    (hw : ScanView.fromBytes (output.2.map Prod.fst) (output.2.map Prod.snd) = .ok w) :
    w.Tracks source := by
  refine ⟨(safe_fromBytes ((safe_rewriteBytes hv.mapsTo rule).2 _ hout)).2 w hw, ?_⟩
  rw [(fromBytes_ok hw).2]
  exact (hv.ordered_rewriteFrom hfits hout).1

/-- The sources of a canonicalized text are those of its characters. -/
theorem sources_canonicalizeFrom {nfkc : Char → Str}
    {sourceOf : Span → Fallible DetectorError Span} {start : Nat} {s : Str} {w : ScanView}
    (h : canonicalizeFrom nfkc sourceOf start s = .ok w) :
    w.sourceByByte.length = len w.text ∧ ∀ r ∈ w.sourceByByte, ∃ span, start ≤ span.start ∧
      span.start < span.stop ∧ span.stop ≤ start + len s ∧ sourceOf span = .ok r := by
  induction s generalizing start w with
  | nil => cases h; simp
  | cons c s ih =>
      have hpos := c.utf8Size_pos
      have hlater : ∀ {r}, (∃ span : Span, start + c.utf8Size ≤ span.start ∧ span.start < span.stop ∧
          span.stop ≤ start + c.utf8Size + len s ∧ sourceOf span = .ok r) →
          ∃ span : Span, start ≤ span.start ∧ span.start < span.stop ∧
            span.stop ≤ start + len (c :: s) ∧ sourceOf span = .ok r := by
        rintro r ⟨span, hle, hlt, hstop, hspan⟩
        exact ⟨span, by omega, hlt, by rw [len_cons]; omega, hspan⟩
      simp only [canonicalizeFrom] at h
      split at h
      · obtain ⟨hlen, hfrom⟩ := ih h
        exact ⟨hlen, fun r hr => hlater (hfrom r hr)⟩
      · simp only [bind_ok_iff, Except.ok.injEq] at h
        obtain ⟨r, hr, rest, hrest, rfl⟩ := h
        obtain ⟨hlen, hfrom⟩ := ih hrest
        refine ⟨by simp [hlen], fun x hx => ?_⟩
        rcases List.mem_append.mp hx with hx | hx
        · rw [List.eq_of_mem_replicate hx]
          exact ⟨⟨start, start + c.utf8Size⟩, Nat.le_refl _, by simp only; omega,
            by rw [len_cons]; simp only; omega, hr⟩
        · exact hlater (hfrom x hx)

/-- The loop over the characters keeps the order of their sources. -/
theorem ordered_canonicalizeFrom (nfkc : Char → Str)
    {sourceOf : Span → Fallible DetectorError Span} {start : Nat} {s : Str} {w : ScanView}
    (hmono : ∀ a b r r', a.start < a.stop → a.stop ≤ b.start → b.start < b.stop →
      sourceOf a = .ok r → sourceOf b = .ok r' → InOrder r r')
    (h : canonicalizeFrom nfkc sourceOf start s = .ok w) : w.sourceByByte.Pairwise InOrder := by
  induction s generalizing start w with
  | nil => cases h; simp
  | cons c s ih =>
      have hpos := c.utf8Size_pos
      simp only [canonicalizeFrom] at h
      split at h
      · exact ih h
      · simp only [bind_ok_iff, Except.ok.injEq] at h
        obtain ⟨r, hr, rest, hrest, rfl⟩ := h
        have hsame : ∀ x ∈ List.replicate (len (nfkc c)) r, x = r := fun x hx =>
          List.eq_of_mem_replicate hx
        refine List.pairwise_append.mpr ⟨?_, ih hrest, fun x hx y hy => ?_⟩
        · exact List.pairwise_of_forall_mem_list fun x hx y hy => by
            rw [hsame x hx, hsame y hy]
            exact InOrder.refl _
        · obtain ⟨span, hle, hlt, _, hspan⟩ := (sources_canonicalizeFrom hrest).2 y hy
          rw [hsame x hx]
          exact hmono ⟨start, start + c.utf8Size⟩ span r y (by simp only; omega) hle hlt hr hspan

/-! ## Reachable views -/

/-- The views that the transforms reach from the normalized source. -/
inductive Reachable (nfkc : Char → Str) (source : Str) : ScanView → Prop where
  | normalize {view : ScanView} : ScanView.normalize nfkc source = .ok view → Reachable nfkc source view
  | removeStructuralContinuations {view w : ScanView} : Reachable nfkc source view →
      view.removeStructuralContinuations = .ok w → Reachable nfkc source w
  | canonicalize {view w : ScanView} : Reachable nfkc source view → ScanView.canonicalize nfkc view = .ok w →
      Reachable nfkc source w
  | decodeJsonEscapes {view w : ScanView} : Reachable nfkc source view →
      view.decodeJsonEscapes = .ok (some w) → Reachable nfkc source w
  | decodePercentEncoding {view w : ScanView} : Reachable nfkc source view →
      view.decodePercentEncoding = .ok (some w) → Reachable nfkc source w
  | collapseCandidateSeparators {view w : ScanView} : Reachable nfkc source view →
      view.collapseCandidateSeparators = .ok (some w) → Reachable nfkc source w

theorem Tracks.removeStructuralContinuations (hv : view.Tracks source) {w : ScanView}
    (h : view.removeStructuralContinuations = .ok w) : w.Tracks source := by
  obtain ⟨output, hout, hw⟩ := bind_ok_iff.mp h
  exact hv.fromBytes fits_continuationRule hout hw

theorem Tracks.canonicalize {nfkc : Char → Str} (hv : view.Tracks source) {w : ScanView}
    (h : ScanView.canonicalize nfkc view = .ok w) : w.Tracks source := by
  obtain ⟨v, hcanon, h⟩ := bind_ok_iff.mp h
  refine removeStructuralContinuations ⟨?_, ?_⟩ h
  · exact (safe_canonicalizeFrom nfkc fun _ _ _ _ => safe_combinedSource hv.mapsTo).2 v hcanon
  · refine ordered_canonicalizeFrom nfkc (fun a b r r' _ hle hlt hr hr' => ?_) hcanon
    exact hv.inOrder_combinedSource hr hr' (by omega) (by omega)

theorem tracks_normalize {nfkc : Char → Str} {w : ScanView}
    (h : normalize nfkc source = .ok w) : w.Tracks source := by
  obtain ⟨v, hcanon, h⟩ := bind_ok_iff.mp h
  refine Tracks.removeStructuralContinuations ⟨(safe_canonicalizeFrom_ok nfkc source).2 v hcanon, ?_⟩ h
  refine ordered_canonicalizeFrom nfkc (fun a b r r' _ hle _ hr hr' => ?_) hcanon
  cases hr
  cases hr'
  exact ⟨by omega, by omega⟩

/-- The changed view of a decoder. -/
theorem changed_ok {output : Bool × List (UInt8 × Span)} {r : Fallible DetectorError ScanView}
    {w : ScanView} (h : (if output.1 = false then .ok none else r.map some) = .ok (some w)) :
    r = .ok w := by
  split at h
  · cases h
  · obtain ⟨w', hw', h⟩ := map_ok_iff.mp h
    cases h
    exact hw'

/-- The decoded view of percent escapes that stand for text. -/
theorem decoded_ok {output : Bool × List (UInt8 × Span)} {r : Fallible DetectorError ScanView}
    {p : Prop} [Decidable p] {e : DetectorError} {w : ScanView}
    (h : (if output.1 = false then .ok none else if p then err e else r.map some) = .ok (some w)) :
    r = .ok w := by
  split at h
  · cases h
  split at h
  · cases h
  · obtain ⟨w', hw', h⟩ := map_ok_iff.mp h
    cases h
    exact hw'

theorem Reachable.tracks {nfkc : Char → Str} (h : Reachable nfkc source view) :
    view.Tracks source := by
  induction h with
  | normalize h => exact tracks_normalize h
  | removeStructuralContinuations _ h ih => exact ih.removeStructuralContinuations h
  | canonicalize _ h ih => exact ih.canonicalize h
  | decodeJsonEscapes _ h ih =>
      obtain ⟨output, hout, h⟩ := bind_ok_iff.mp h
      exact ih.fromBytes takesAscii_jsonEscapeRule.fits hout (changed_ok h)
  | decodePercentEncoding _ h ih =>
      obtain ⟨output, hout, h⟩ := bind_ok_iff.mp h
      exact ih.fromBytes takesAscii_percentRule.fits hout (decoded_ok h)
  | collapseCandidateSeparators _ h ih =>
      obtain ⟨output, hout, h⟩ := bind_ok_iff.mp h
      exact ih.fromBytes fits_separatorRule hout (changed_ok h)

/-- No transform of the view fails; only percent escapes may stand for bytes that are no text. -/
structure Transforms (nfkc : Char → Str) (view : ScanView) : Prop where
  removeStructuralContinuations : ∃ w, view.removeStructuralContinuations = .ok w
  canonicalize : ∃ w, ScanView.canonicalize nfkc view = .ok w
  decodeJsonEscapes : ∃ o, view.decodeJsonEscapes = .ok o
  decodePercentEncoding : (∃ o, view.decodePercentEncoding = .ok o) ∨
    view.decodePercentEncoding = err .invalidPercentEncoding
  collapseCandidateSeparators : ∃ o, view.collapseCandidateSeparators = .ok o

theorem Tracks.transforms (hv : view.Tracks source) (nfkc : Char → Str) : view.Transforms nfkc where
  removeStructuralContinuations := removeStructuralContinuations_ok hv.mapsTo
  canonicalize := canonicalize_ok nfkc hv.mapsTo
  decodeJsonEscapes := decodeJsonEscapes_ok hv.mapsTo
  decodePercentEncoding := decodePercentEncoding_cases hv.mapsTo
  collapseCandidateSeparators := collapseCandidateSeparators_ok hv.mapsTo

theorem slice_of_sourceRange {r : Span} (h : SourceRange source r) :
    ∃ t, get? source r = some t ∧ t ≠ [] := by
  obtain ⟨t, ht⟩ := get?_isSome_of_boundary h.start h.stop (Nat.le_of_lt h.lt)
  obtain ⟨p, q, rfl, hp, hq⟩ := get?_eq_some_iff.mp ht
  refine ⟨t, ht, fun hn => ?_⟩
  have := h.lt
  subst hn
  simp at hq
  omega

/-- Every view that the transforms reach has a valid source map, so that no transform fails over it;
the source of a range goes from its first byte's range to its last byte's, and every finding is a slice
of the source that is not empty. -/
theorem source_maps_valid {nfkc : Char → Str} (h : Reachable nfkc source view) :
    (∃ w, ScanView.normalize nfkc source = .ok w) ∧ view.Tracks source ∧ view.Transforms nfkc ∧
    (∀ span : Span, span.start < span.stop → span.stop ≤ len view.text →
      ∃ a b, view.sourceByByte[span.start]? = some a ∧ view.sourceByByte[span.stop - 1]? = some b ∧
        view.combinedSource span = .ok ⟨a.start, b.stop⟩) ∧
    (∀ span c d k f, view.finding span c d k = .ok f →
      ∃ t, get? source f.sourceSpan = some t ∧ t ≠ []) ∧
    ∀ u settings, validateDetectorSettings settings = .ok () → ∀ found,
      (Scanner.new settings).scan u source = .ok found →
        ∀ f ∈ found, ∃ t, get? source f.sourceSpan = some t ∧ t ≠ [] := by
  have hv := h.tracks
  refine ⟨normalize_ok nfkc source, hv, hv.transforms nfkc, fun span => hv.combinedSource_eq, ?_, ?_⟩
  · intro span c d k f hf
    exact slice_of_sourceRange ((safe_finding hv.mapsTo c d k).2 f hf)
  · intro u settings hs found hfound f hf
    exact slice_of_sourceRange (scan_sourceRange u (Scanner.configured_new hs) hfound f hf)

/-- A view whose one character comes from a surrogate pair. -/
def pairView : ScanView := ⟨['😀'], List.replicate 4 ⟨0, 12⟩⟩

theorem source_maps_valid_demo : pairView.Tracks "\\ud83d\\ude00".toList := by
  have hnormal : Reachable Unicode.ascii.nfkc "\\ud83d\\ude00".toList
      ⟨"\\ud83d\\ude00".toList, unitSpans 0 12⟩ := .normalize (by decide)
  exact (source_maps_valid (.decodeJsonEscapes hnormal
    (by decide : _ = Except.ok (some pairView)))).2.1

end ScanView

end AgentVeil
