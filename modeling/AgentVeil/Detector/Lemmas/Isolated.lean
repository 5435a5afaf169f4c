import AgentVeil.Detector.Composition
import AgentVeil.Detector.SourceMaps

/-!
# Isolated texts

A text in brackets that holds nothing the passes look for stands in every view as it stands in the
source: no transform changes it, reaches into it from its sides or moves it.
-/

namespace AgentVeil

open Rust

/-- A bracket, and ASCII characters that no pass changes. -/
structure Inert (t : Str) : Prop where
  bracket : t.head? = some '['
  ascii : ∀ c ∈ t, isAscii c = true
  plain : ∀ c ∈ t, c ≠ '\\' ∧ c ≠ '%' ∧ c ≠ '.'

theorem Inert.ne {t : Str} (ht : Inert t) : t ≠ [] := by
  intro h
  have := ht.bracket
  rw [h] at this
  cases this

theorem Inert.head_bytes {t : Str} (ht : Inert t) : (bytes t).head? = some 0x5B := by
  cases t with
  | nil => exact absurd rfl ht.ne
  | cons c t =>
      cases ht.bracket
      rfl

theorem Inert.ne_bytes {t : Str} (ht : Inert t) {b : UInt8} (hb : b ∈ bytes t) :
    b ≠ 0x5C ∧ b ≠ 0x25 ∧ b ≠ 0x2E := by
  obtain ⟨c, hc, hbc⟩ := List.mem_flatMap.mp hb
  obtain ⟨h₁, h₂, h₃⟩ := ht.plain c hc
  exact ⟨@ne_of_mem_utf8EncodeChar c '\\' (by decide) h₁ _ hbc,
    @ne_of_mem_utf8EncodeChar c '%' (by decide) h₂ _ hbc,
    @ne_of_mem_utf8EncodeChar c '.' (by decide) h₃ _ hbc⟩

namespace ScanView

variable {source : Str} {view w : ScanView} {rule : ByteRule} {t : Str} {start : Nat}

/-- The text stands in the view with its own sources, and the bytes on its sides come from its sides
of the source. -/
def Isolates (view : ScanView) (t : Str) (start : Nat) : Prop :=
  ∃ a b before after, view.text = a ++ t ++ b ∧
    view.sourceByByte = before ++ unitSpans start (len t) ++ after ∧ before.length = len a ∧
    (∀ r ∈ before, r.stop ≤ start) ∧ ∀ r ∈ after, start + len t ≤ r.start

theorem length_unitSpans (start n : Nat) : (unitSpans start n).length = n := by simp [unitSpans]

/-- A byte before the text comes from before it, and one after it from after it. -/
theorem getElem?_sides {a : Str} {before after : List Span} {k : Nat} {m : Span}
    (hs : view.sourceByByte = before ++ unitSpans start (len t) ++ after)
    (hlen : before.length = len a) (hm : view.sourceByByte[k]? = some m) :
    (k < len a → m ∈ before) ∧ (len a + len t ≤ k → m ∈ after) := by
  rw [hs, List.append_assoc] at hm
  constructor
  · intro hk
    rw [List.getElem?_append_left (by omega)] at hm
    exact List.mem_of_getElem? hm
  · intro hk
    rw [List.getElem?_append_right (by omega), List.getElem?_append_right
      (by rw [length_unitSpans]; omega)] at hm
    exact List.mem_of_getElem? hm

theorem MapsTo.stop_le (hv : view.MapsTo source) {k : Nat} {m : Span}
    (hm : view.sourceByByte[k]? = some m) : m.stop ≤ len source :=
  le_len_of_isCharBoundary (hv.ranges m (List.mem_of_getElem? hm)).stop

/-! ## Passes -/

/-- A pass whose rule leaves the text alone. -/
theorem Isolates.pass (hv : view.MapsTo source) (ht : Inert t) (hr : rule.TakesAscii)
    (hplain : ∀ prev b bs, b ∈ bytes t → rule prev (b :: bs) = none) (h : view.Isolates t start)
    {output : Bool × List (UInt8 × Span)} (hout : view.rewriteBytes rule = .ok output)
    (hw : fromBytes (output.2.map Prod.fst) (output.2.map Prod.snd) = .ok w) :
    w.Isolates t start := by
  obtain ⟨a, b, before, after, htext, hsource, hlen, hbefore, hafter⟩ := h
  have hsides := fun {k m} => @getElem?_sides view t start a before after k m hsource hlen
  -- no change reaches from the left into the text, which begins with a bracket
  have hstops : ∀ prev as' o n, as' ≠ [] →
      rule prev (as' ++ (bytes t ++ bytes b)) = some (o, n) → n ≤ as'.length := by
    intro prev as' o n _ hrule
    by_contra hn
    obtain ⟨bs, hbs⟩ : ∃ bs, bytes t ++ bytes b = 0x5B :: bs := by
      cases hbt : bytes t with
      | nil =>
          have := ht.head_bytes
          rw [hbt] at this
          cases this
      | cons x l =>
          have hx := ht.head_bytes
          rw [hbt, List.head?_cons, Option.some.injEq] at hx
          exact ⟨l ++ bytes b, by rw [hx]; rfl⟩
    have hmem : (0x5B : UInt8) ∈ (as' ++ (bytes t ++ bytes b)).take n := by
      rw [hbs, List.take_append, List.mem_append, show n - as'.length = n - as'.length - 1 + 1 by omega]
      exact .inr List.mem_cons_self
    exact absurd (hr.ascii _ _ _ _ hrule _ hmem) (by decide)
  rw [rewriteBytes, htext, bytes_append, bytes_append, List.append_assoc] at hout
  obtain ⟨x, y, hxy, hy, _, _, hx⟩ := rewriteFrom_append hstops (Nat.zero_le _) hout
  obtain ⟨z, v, hzv, hv', hz, hzs⟩ := rewriteFrom_plain (fun prev b bs hb => hplain prev b bs hb) hy
  rw [← List.append_nil (bytes b)] at hv'
  obtain ⟨x', y', hxy', hy', _, _, hx'⟩ := rewriteFrom_append
    (fun prev as' o n _ hrule => by
      have := (hr.fits prev (as' ++ []) o n hrule).2
      simpa using this) (Nat.zero_le _) hv'
  cases hy'
  simp only [List.append_nil] at hxy'
  rw [Nat.zero_add, length_bytes, length_bytes] at hx'
  have hzs : z.map Prod.snd = unitSpans start (len t) := by
    rw [hzs, Nat.zero_add, length_bytes, length_bytes, hsource, List.append_assoc, ← hlen,
      List.drop_left, List.take_left' (length_unitSpans _ _)]
  -- the text splits where its bytes do
  obtain ⟨hbytes, hsources⟩ := fromBytes_ok hw
  rw [hxy, hzv, hxy', List.map_append, List.map_append] at hbytes hsources
  rw [hz, ← List.append_assoc] at hbytes
  obtain ⟨a', b', htext', ha', _⟩ := bytes_split_text ht.ascii ht.ne hbytes
  refine ⟨a', b', x.map Prod.snd, x'.map Prod.snd, htext', ?_, ?_, ?_, ?_⟩
  · rw [hsources, hzs, List.append_assoc]
  · rw [← length_bytes, ha', List.length_map, List.length_map]
  · intro r hr
    obtain ⟨p, hp, rfl⟩ := List.mem_map.mp hr
    refine (hx 0 start (fun k m _ hk hm => ⟨Nat.zero_le _, ?_⟩) p hp).2
    exact hbefore m ((hsides hm).1 (by rwa [Nat.zero_add, length_bytes] at hk))
  · intro r hr
    obtain ⟨p, hp, rfl⟩ := List.mem_map.mp hr
    refine (hx' (start + len t) (len source) (fun k m hk _ hm => ⟨?_, hv.stop_le hm⟩) p hp).1
    exact hafter m ((hsides hm).2 hk)

theorem Isolates.removeStructuralContinuations (hv : view.MapsTo source) (ht : Inert t)
    (h : view.Isolates t start) (hw : view.removeStructuralContinuations = .ok w) :
    w.Isolates t start := by
  obtain ⟨output, hout, hw⟩ := bind_ok_iff.mp hw
  exact h.pass hv ht takesAscii_continuationRule
    (fun _ _ _ hb => continuationRule_none (ht.ne_bytes hb).1) hout hw

/-! ## Canonicalization -/

theorem isolates_canonicalizeFrom (u : Unicode) (ht : Inert t) {a b : Str}
    {sourceOf : Span → Fallible DetectorError Span} (hunit : ∀ i < len t,
      sourceOf ⟨len a + i, len a + i + 1⟩ = .ok ⟨start + i, start + i + 1⟩)
    (hbefore : ∀ span r, span.start < span.stop → span.stop ≤ len a → sourceOf span = .ok r →
      r.stop ≤ start)
    (hafter : ∀ span r, len a + len t ≤ span.start → span.start < span.stop →
      sourceOf span = .ok r → start + len t ≤ r.start)
    (h : canonicalizeFrom u.nfkc sourceOf 0 (a ++ t ++ b) = .ok w) : w.Isolates t start := by
  have htlen := len_of_isAscii ht.ascii
  simp only [canonicalizeFrom_append, Nat.zero_add, bind_ok_iff, Except.ok.injEq] at h
  obtain ⟨_, ⟨va, ha, vt, hvt, rfl⟩, vb, hb, rfl⟩ := h
  rw [canonicalizeFrom_ascii u ht.ascii fun i hi => hunit i (by omega)] at hvt
  cases hvt
  obtain ⟨hla, hsa⟩ := sources_canonicalizeFrom ha
  obtain ⟨_, hsb⟩ := sources_canonicalizeFrom hb
  refine ⟨va.text, vb.text, va.sourceByByte, vb.sourceByByte, rfl, by rw [htlen], hla, ?_, ?_⟩
  · intro r hr
    obtain ⟨span, _, hlt, hle, hspan⟩ := hsa r hr
    exact hbefore span r hlt (by omega) hspan
  · intro r hr
    obtain ⟨span, hle, hlt, _, hspan⟩ := hsb r hr
    exact hafter span r (by rwa [len_append] at hle) hlt hspan

theorem isolates_normalize (u : Unicode) (ht : Inert t) {p s : Str}
    (h : normalize u.nfkc (p ++ t ++ s) = .ok w) : w.Isolates t (len p) := by
  obtain ⟨v, hcanon, h⟩ := bind_ok_iff.mp h
  refine Isolates.removeStructuralContinuations
    ((safe_canonicalizeFrom_ok u.nfkc (p ++ t ++ s)).2 v hcanon) ht ?_ h
  refine isolates_canonicalizeFrom u ht (fun _ _ => rfl) (fun span r _ hle hr => ?_)
    (fun span r hle _ hr => ?_) hcanon
  · cases hr
    exact hle
  · cases hr
    exact hle

theorem Isolates.canonicalize (u : Unicode) (hv : view.MapsTo source) (ht : Inert t)
    (h : view.Isolates t start) (hw : ScanView.canonicalize u.nfkc view = .ok w) :
    w.Isolates t start := by
  obtain ⟨v, hcanon, hw⟩ := bind_ok_iff.mp hw
  refine removeStructuralContinuations
    ((safe_canonicalizeFrom u.nfkc fun _ _ _ _ => safe_combinedSource hv).2 v hcanon) ht ?_ hw
  obtain ⟨a, b, before, after, htext, hsource, hlen, hbefore, hafter⟩ := h
  have hsides := fun {k m} => @getElem?_sides view t start a before after k m hsource hlen
  have hshows : view.Shows a t b (unitSpans start (len t)) :=
    ⟨htext, before, after, hsource, hlen, length_unitSpans _ _⟩
  rw [htext] at hcanon
  refine isolates_canonicalizeFrom u ht (fun i hi => ?_) (fun span r _ hle hr => ?_)
    (fun span r hle _ hr => ?_) hcanon
  · obtain ⟨r, hr, _⟩ := @combinedSource_ok _ _ hv ⟨len a + i, len a + i + 1⟩
      (by simp only; omega) (by rw [htext, len_append, len_append]; simp only; omega)
    rw [hr, hshows.combinedSource_unit (by omega : i < i + 1) hi hr]
    rfl
  · exact (combinedSource_within hr fun k m _ hk hm =>
      ⟨Nat.zero_le _, hbefore m ((hsides hm).1 (by omega))⟩).2
  · exact (combinedSource_within hr fun k m hk _ hm =>
      ⟨hafter m ((hsides hm).2 (by omega)), hv.stop_le hm⟩).1

/-- In every view that the transforms reach, the text stands as in the source. -/
theorem Reachable.isolates (u : Unicode) (ht : Inert t) {p s : Str}
    (h : Reachable u.nfkc (p ++ t ++ s) view) : view.Isolates t (len p) := by
  have hjson : ∀ prev b bs, b ∈ bytes t → jsonEscapeRule prev (b :: bs) = none := by
    intro prev b bs hb
    unfold jsonEscapeRule
    split
    · rename_i h
      exact absurd (List.cons.inj h).1 (ht.ne_bytes hb).1
    · rfl
  have hpercent : ∀ prev b bs, b ∈ bytes t → percentRule prev (b :: bs) = none := by
    intro prev b bs hb
    unfold percentRule
    split
    · rename_i h
      exact absurd (List.cons.inj h).1 (ht.ne_bytes hb).2.1
    · rfl
  induction h with
  | normalize h => exact isolates_normalize u ht h
  | removeStructuralContinuations hv h ih =>
      exact ih.removeStructuralContinuations hv.tracks.mapsTo ht h
  | canonicalize hv h ih => exact ih.canonicalize u hv.tracks.mapsTo ht h
  | decodeJsonEscapes hv h ih =>
      obtain ⟨output, hout, h⟩ := bind_ok_iff.mp h
      exact ih.pass hv.tracks.mapsTo ht takesAscii_jsonEscapeRule hjson hout (changed_ok h)
  | decodePercentEncoding hv h ih =>
      obtain ⟨output, hout, h⟩ := bind_ok_iff.mp h
      exact ih.pass hv.tracks.mapsTo ht takesAscii_percentRule hpercent hout (decoded_ok h)
  | collapseCandidateSeparators hv h ih =>
      obtain ⟨output, hout, h⟩ := bind_ok_iff.mp h
      exact ih.pass hv.tracks.mapsTo ht takesAscii_separatorRule
        (fun _ _ _ hb => separatorRule_none (ht.ne_bytes hb).2.2 _ _) hout (changed_ok h)

/-! ## The views of a scan -/

theorem Decoded.reachable {u : Unicode} {root : ScanView} (hroot : Reachable u.nfkc source root)
    {n : Nat} (h : Decoded u root n view) : Reachable u.nfkc source view := by
  induction h with
  | root => exact hroot
  | decode _ hw ih =>
      obtain ⟨decoded, hd | hd, hc⟩ := hw
      · exact .canonicalize (.decodeJsonEscapes ih hd) hc
      · exact .canonicalize (.decodePercentEncoding ih hd) hc

/-- The views of a scan are regular views and their collapsed forms. -/
theorem withCollapsed_origin {l : List ScanView} {views out : List (ScanView × Bool)}
    (h : withCollapsed l views = .ok out) : ∀ v ∈ out, v ∈ views ∨ ∃ w ∈ l,
      v = (w, false) ∨ w.collapseCandidateSeparators = .ok (some v.1) ∧ v.2 = true := by
  induction l generalizing views with
  | nil => cases h; exact fun v hv => .inl hv
  | cons view l ih =>
      have hrest : ∀ {v : ScanView × Bool}, (∃ w ∈ l, v = (w, false) ∨
          w.collapseCandidateSeparators = .ok (some v.1) ∧ v.2 = true) → ∃ w ∈ view :: l,
          v = (w, false) ∨ w.collapseCandidateSeparators = .ok (some v.1) ∧ v.2 = true :=
        fun ⟨w, hw, h⟩ => ⟨w, List.mem_cons_of_mem _ hw, h⟩
      simp only [withCollapsed] at h
      split at h
      · cases h
      obtain ⟨collapsed, hc, h⟩ := bind_ok_iff.mp h
      cases collapsed with
      | none =>
          intro v hv
          rcases ih h v hv with hv | hv
          · rcases List.mem_append.mp hv with hv | hv
            · exact .inl hv
            · exact .inr ⟨view, List.mem_cons_self, .inl (List.mem_singleton.mp hv)⟩
          · exact .inr (hrest hv)
      | some w =>
          simp only at h
          split at h
          · cases h
          intro v hv
          rcases ih h v hv with hv | hv
          · rcases List.mem_append.mp hv with hv | hv
            · exact .inl hv
            rcases List.mem_cons.mp hv with rfl | hv
            · exact .inr ⟨view, List.mem_cons_self, .inl rfl⟩
            · obtain rfl := List.mem_singleton.mp hv
              exact .inr ⟨view, List.mem_cons_self, .inr ⟨hc, rfl⟩⟩
          · exact .inr (hrest hv)

end ScanView

theorem reachable_scanViews (u : Unicode) {source : Str} {views : List (ScanView × Bool)}
    (h : scanViews u source = .ok views) :
    ∀ v ∈ views, ScanView.Reachable u.nfkc source v.1 := by
  simp only [scanViews, bind_ok_iff] at h
  obtain ⟨root, hroot, l, hl, hviews⟩ := h
  have hregular : ∀ w ∈ l, ScanView.Reachable u.nfkc source w := fun w hw => by
    obtain ⟨n, hd⟩ := ScanView.decoded_composedViews hl hw
    exact hd.reachable (.normalize hroot)
  intro v hv
  rcases ScanView.withCollapsed_origin hviews v hv with hv | ⟨w, hw, rfl | ⟨hc, _⟩⟩
  · cases hv
  · exact hregular w hw
  · exact .collapseCandidateSeparators (hregular w hw) hc

end AgentVeil
