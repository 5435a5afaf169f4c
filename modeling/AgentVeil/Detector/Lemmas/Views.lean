import AgentVeil.Detector.View

/-!
# Source maps stay valid

Every byte of every view maps to a range of the source: not empty, inside it, and between character
boundaries. No step that builds the views panics.
-/

namespace AgentVeil

open Rust

/-- A range of the source between character boundaries, not empty. -/
structure SourceRange (source : Str) (r : Span) : Prop where
  lt : r.start < r.stop
  start : isCharBoundary source r.start = true
  stop : isCharBoundary source r.stop = true

/-- One source range for each byte of the view. -/
structure ScanView.MapsTo (source : Str) (view : ScanView) : Prop where
  length : view.sourceByByte.length = len view.text
  ranges : ∀ r ∈ view.sourceByByte, SourceRange source r

namespace ScanView

variable {source : Str} {view : ScanView}

/-- A range found over a part of the map. -/
theorem sourceRange_combine {l : List Span} (hl : ∀ r ∈ l, SourceRange source r) {a b : Nat}
    (ha : (l.map Span.start).min? = some a) (hb : (l.map Span.stop).max? = some b) :
    SourceRange source ⟨a, b⟩ := by
  obtain ⟨ha, hmin⟩ := List.min?_eq_some_iff.mp ha
  obtain ⟨hb, hmax⟩ := List.max?_eq_some_iff.mp hb
  obtain ⟨r, hr, rfl⟩ := List.mem_map.mp ha
  obtain ⟨q, hq, rfl⟩ := List.mem_map.mp hb
  have := hmax r.stop (List.mem_map_of_mem hr)
  exact ⟨Nat.lt_of_lt_of_le (hl r hr).lt this, (hl r hr).start, (hl q hq).stop⟩

/-- Over the bytes of a view, `combined_source` succeeds. -/
theorem combinedSource_ok (hv : view.MapsTo source) {span : Span} (hlt : span.start < span.stop)
    (hle : span.stop ≤ len view.text) :
    ∃ r, view.combinedSource span = .ok r ∧ SourceRange source r := by
  let l := (view.sourceByByte.drop span.start).take (span.stop - span.start)
  have hl : ∀ r ∈ l, SourceRange source r := fun r hr =>
    hv.ranges r (List.mem_of_mem_drop (List.mem_of_mem_take hr))
  have hne : l ≠ [] := by
    rw [← List.length_pos_iff]
    simp only [l, List.length_take, List.length_drop, hv.length]
    omega
  obtain ⟨a, ha⟩ := Option.isSome_iff_exists.mp (List.isSome_min?_of_ne_nil
    (mt List.map_eq_nil_iff.mp hne : l.map Span.start ≠ []))
  obtain ⟨b, hb⟩ := Option.isSome_iff_exists.mp (List.isSome_max?_of_ne_nil
    (mt List.map_eq_nil_iff.mp hne : l.map Span.stop ≠ []))
  have hr := sourceRange_combine hl ha hb
  refine ⟨⟨a, b⟩, ?_, hr⟩
  have h₁ : ¬(span.stop ≤ span.start ∨ view.sourceByByte.length < span.stop) := by
    rw [hv.length]; omega
  unfold combinedSource
  rw [if_neg h₁]
  simp only [l] at ha hb
  simp only [ha, hb, Nat.not_le.mpr hr.lt, ↓reduceIte]

theorem safe_combinedSource (hv : view.MapsTo source) {span : Span} :
    Safe (SourceRange source) (view.combinedSource span) := by
  by_cases h : span.stop ≤ span.start ∨ view.sourceByByte.length < span.stop
  · unfold combinedSource
    rw [if_pos h]
    exact safe_err
  · obtain ⟨r, hr, hs⟩ := @combinedSource_ok _ _ hv span (by omega) (by
      rw [← hv.length]; omega)
    rw [hr]
    exact safe_ok hs

/-- A finding over the bytes of a view. -/
theorem finding_ok (hv : view.MapsTo source) {span : Span} (hlt : span.start < span.stop)
    (hle : span.stop ≤ len view.text) (c : DataClass) (d : DetectorId) (k : Confidence) :
    ∃ f, view.finding span c d k = .ok f ∧ SourceRange source f.sourceSpan := by
  obtain ⟨r, hr, hs⟩ := combinedSource_ok hv hlt hle
  exact ⟨⟨c, d, k, r⟩, by simp only [finding, hr, bind, Except.bind], hs⟩

theorem safe_finding (hv : view.MapsTo source) {span : Span} (c : DataClass) (d : DetectorId)
    (k : Confidence) :
    Safe (fun f => SourceRange source f.sourceSpan) (view.finding span c d k) :=
  (safe_combinedSource hv).bind fun _ hr => safe_ok hr

/-! ## Passes -/

theorem safe_fromBytes {bs : List UInt8} {mappings : List Span}
    (hm : ∀ r ∈ mappings, SourceRange source r) :
    Safe (MapsTo source) (fromBytes bs mappings) := by
  unfold fromBytes
  split
  · exact safe_err
  · rename_i hlen
    split
    · exact safe_err
    · rename_i text htext
      refine safe_ok ⟨?_, hm⟩
      change mappings.length = len text
      rw [← length_bytes, bytes_of_fromUtf8 htext]
      omega

theorem safe_replaced (hv : view.MapsTo source) {output : List UInt8} {span : Span} :
    Safe (fun ps => ∀ p ∈ ps, SourceRange source p.2) (view.replaced output span) := by
  unfold replaced
  split
  · exact safe_ok (by simp)
  · refine (safe_combinedSource hv).map fun r hr p hp => ?_
    obtain ⟨_, _, rfl⟩ := List.mem_map.mp hp
    exact hr

theorem safe_rewriteFrom (hv : view.MapsTo source) (rule : ByteRule) {skip index : Nat}
    {prev : Option UInt8} {bs : List UInt8} (hlen : index + bs.length = len view.text) :
    Safe (fun output => ∀ p ∈ output.2, SourceRange source p.2)
      (view.rewriteFrom rule skip prev index bs) := by
  induction bs generalizing skip prev index with
  | nil => cases skip <;> exact safe_ok (by simp)
  | cons b rest ih =>
      have hnext : index + 1 + rest.length = len view.text := by
        rw [List.length_cons] at hlen; omega
      cases skip with
      | succ skip => exact ih hnext
      | zero =>
          simp only [rewriteFrom]
          split
          · rename_i output n _
            refine (safe_replaced hv).bind fun ps hps => (ih hnext).bind fun tail htail => safe_ok ?_
            intro p hp
            rcases List.mem_append.mp hp with hp | hp
            · exact hps p hp
            · exact htail p hp
          · have hlt : index < view.sourceByByte.length := by
              rw [hv.length, ← hlen, List.length_cons]; omega
            refine (safe_orPanic (List.getElem?_eq_getElem hlt)
              (hv.ranges _ (List.getElem_mem hlt))).bind
              fun r hr => (ih hnext).bind fun tail htail => safe_ok ?_
            intro p hp
            rcases List.mem_cons.mp hp with rfl | hp
            · exact hr
            · exact htail p hp

theorem safe_rewriteBytes (hv : view.MapsTo source) (rule : ByteRule) :
    Safe (fun output => ∀ r ∈ output.2.map Prod.snd, SourceRange source r)
      (view.rewriteBytes rule) := by
  refine (safe_rewriteFrom hv rule (by simp)).mono fun output h r hr => ?_
  obtain ⟨p, hp, rfl⟩ := List.mem_map.mp hr
  exact h p hp

theorem safe_removeStructuralContinuations (hv : view.MapsTo source) :
    Safe (MapsTo source) view.removeStructuralContinuations :=
  (safe_rewriteBytes hv _).bind fun _ h => safe_fromBytes h

theorem safe_decodeJsonEscapes (hv : view.MapsTo source) :
    Safe (fun o => ∀ v ∈ o, MapsTo source v) view.decodeJsonEscapes := by
  refine (safe_rewriteBytes hv _).bind fun output h => ?_
  split
  · exact safe_ok nofun
  · exact (safe_fromBytes h).map fun v hv w hw => by cases hw; exact hv

theorem safe_decodePercentEncoding (hv : view.MapsTo source) :
    Safe (fun o => ∀ v ∈ o, MapsTo source v) view.decodePercentEncoding := by
  refine (safe_rewriteBytes hv _).bind fun output h => ?_
  split
  · exact safe_ok nofun
  · split
    · exact safe_err
    · exact (safe_fromBytes h).map fun v hv w hw => by cases hw; exact hv

theorem safe_collapseCandidateSeparators (hv : view.MapsTo source) :
    Safe (fun o => ∀ v ∈ o, MapsTo source v) view.collapseCandidateSeparators := by
  refine (safe_rewriteBytes hv _).bind fun output h => ?_
  split
  · exact safe_ok nofun
  · exact (safe_fromBytes h).map fun v hv w hw => by cases hw; exact hv

/-- The loop over the characters of `s`, the rest of a text after `start` bytes. -/
theorem safe_canonicalizeFrom (nfkc : Char → Str) {sourceOf : Span → Fallible DetectorError Span}
    {start : Nat} {s : Str}
    (hs : ∀ a c b, s = a ++ c :: b →
      Safe (SourceRange source) (sourceOf ⟨start + len a, start + len a + c.utf8Size⟩)) :
    Safe (MapsTo source) (canonicalizeFrom nfkc sourceOf start s) := by
  induction s generalizing start with
  | nil => exact safe_ok ⟨rfl, by simp⟩
  | cons c s ih =>
      have hrest : Safe (MapsTo source) (canonicalizeFrom nfkc sourceOf (start + c.utf8Size) s) := by
        refine ih fun a d b h => ?_
        have := hs (c :: a) d b (by rw [h]; rfl)
        rwa [len_cons, ← Nat.add_assoc] at this
      simp only [canonicalizeFrom]
      split
      · exact hrest
      · refine (hs [] c s rfl).bind fun r hr => hrest.bind fun rest h => safe_ok ⟨?_, ?_⟩
        · simp [h.length]
        · intro q hq
          rcases List.mem_append.mp hq with hq | hq
          · rw [List.eq_of_mem_replicate hq]; exact hr
          · exact h.ranges q hq

theorem safe_canonicalizeFrom_ok (nfkc : Char → Str) (source : Str) :
    Safe (MapsTo source) (canonicalizeFrom nfkc .ok 0 source) := by
  apply safe_canonicalizeFrom
  intro a c b h
  subst h
  refine safe_ok ⟨by have := c.utf8Size_pos; simp only; omega, ?_, ?_⟩
  · simpa using isCharBoundary_append a (c :: b)
  · have := isCharBoundary_append (a ++ [c]) b
    simpa using this

theorem safe_normalize (nfkc : Char → Str) (source : Str) :
    Safe (MapsTo source) (normalize nfkc source) :=
  (safe_canonicalizeFrom_ok nfkc source).bind fun _ h => safe_removeStructuralContinuations h

theorem safe_canonicalize (nfkc : Char → Str) (hv : view.MapsTo source) :
    Safe (MapsTo source) (canonicalize nfkc view) :=
  (safe_canonicalizeFrom nfkc fun _ _ _ _ => safe_combinedSource hv).bind
    fun _ h => safe_removeStructuralContinuations h

/-! ## Composed views -/

theorem safe_canonicalizeDecoded (u : Unicode) {o : Option ScanView}
    (ho : ∀ v ∈ o, MapsTo source v) :
    Safe (fun l => l.length ≤ 1 ∧ ∀ v ∈ l, MapsTo source v) (canonicalizeDecoded u o) := by
  cases o with
  | none => exact safe_ok ⟨by simp, by simp⟩
  | some v =>
      exact (safe_canonicalize u.nfkc (ho v rfl)).bind fun w hw => safe_ok ⟨by simp, by simpa using hw⟩

theorem safe_decodings (u : Unicode) (hv : view.MapsTo source) :
    Safe (fun l => l.length ≤ 2 ∧ ∀ v ∈ l, MapsTo source v) (decodings u view) := by
  refine (safe_decodeJsonEscapes hv).bind fun o₁ h₁ => (safe_canonicalizeDecoded u h₁).bind
    fun l₁ h₁ => (safe_decodePercentEncoding hv).bind fun o₂ h₂ =>
      (safe_canonicalizeDecoded u h₂).bind fun l₂ h₂ => safe_ok ⟨?_, ?_⟩
  · rw [List.length_append]; omega
  · intro v hv
    rcases List.mem_append.mp hv with hv | hv
    · exact h₁.2 v hv
    · exact h₂.2 v hv

/-- The most views that a view of this depth can bring into the queue, itself included. -/
def weight (depth : Nat) : Nat := if depth = 0 then 7 else if depth = 1 then 3 else 1

theorem weight_step {depth : Nat} (h : ¬maxDecodeLayers ≤ depth) :
    2 * weight (depth + 1) + 1 = weight depth := by
  simp only [maxDecodeLayers, Nat.not_le] at h
  rcases (by omega : depth = 0 ∨ depth = 1) with rfl | rfl <;> rfl

/-- The fuel covers the queue, so the loop ends. -/
theorem safe_composeFrom (u : Unicode) (bound : Nat) {fuel : Nat} {queue : List (ScanView × Nat)}
    {seen views : List ScanView} (hfuel : (queue.map fun q => weight q.2).sum ≤ fuel)
    (hq : ∀ q ∈ queue, MapsTo source q.1) (hvs : ∀ v ∈ views, MapsTo source v) :
    Safe (fun l => ∀ v ∈ l, MapsTo source v) (composeFrom u bound fuel queue seen views) := by
  have hpos : ∀ d, 0 < weight d := fun d => by unfold weight; split <;> (try split) <;> omega
  induction fuel generalizing queue seen views with
  | zero =>
      cases queue with
      | nil => exact safe_ok hvs
      | cons q queue =>
          have := hpos q.2
          simp only [List.map_cons, List.sum_cons] at hfuel
          omega
  | succ fuel ih =>
      cases queue with
      | nil => exact safe_ok hvs
      | cons q queue =>
          obtain ⟨view, depth⟩ := q
          have := hpos depth
          simp only [List.map_cons, List.sum_cons] at hfuel
          rw [List.forall_mem_cons] at hq
          have hvs' : ∀ v ∈ views ++ [view], MapsTo source v := by
            intro v hv
            rcases List.mem_append.mp hv with hv | hv
            · exact hvs v hv
            · rw [List.mem_singleton.mp hv]; exact hq.1
          simp only [composeFrom]
          split
          · exact ih (by omega) hq.2 hvs
          split
          · exact safe_err
          split
          · exact safe_err
          split
          · exact ih (by omega) hq.2 hvs'
          · rename_i hd
            refine (safe_decodings u hq.1).bind fun l hl => ih ?_ ?_ hvs'
            · have hsum : ((l.map (·, depth + 1)).map fun q : ScanView × Nat => weight q.2).sum
                  = l.length * weight (depth + 1) := by
                simp [Function.comp_def]
              have hle : l.length * weight (depth + 1) ≤ 2 * weight (depth + 1) :=
                Nat.mul_le_mul_right _ hl.1
              have := weight_step hd
              rw [List.map_append, List.sum_append, hsum]
              omega
            · intro q hq'
              rcases List.mem_append.mp hq' with hq' | hq'
              · exact hq.2 q hq'
              · obtain ⟨v, hv, rfl⟩ := List.mem_map.mp hq'
                exact hl.2 v hv

theorem safe_composedViews (u : Unicode) (hv : view.MapsTo source) :
    Safe (fun l => ∀ v ∈ l, MapsTo source v) (composedViews u view) :=
  safe_composeFrom u _ (by simp [weight]) (by simpa using hv) (by simp)

theorem safe_withCollapsed {l : List ScanView} {views : List (ScanView × Bool)}
    (hl : ∀ v ∈ l, MapsTo source v) (hvs : ∀ v ∈ views, MapsTo source v.1) :
    Safe (fun l => ∀ v ∈ l, MapsTo source v.1) (withCollapsed l views) := by
  induction l generalizing views with
  | nil => exact safe_ok hvs
  | cons view rest ih =>
      rw [List.forall_mem_cons] at hl
      simp only [withCollapsed]
      split
      · exact safe_err
      refine (safe_collapseCandidateSeparators hl.1).bind fun o ho => ?_
      split
      · refine ih hl.2 fun v hv => ?_
        rcases List.mem_append.mp hv with hv | hv
        · exact hvs v hv
        · rw [List.mem_singleton.mp hv]; exact hl.1
      · rename_i collapsed
        split
        · exact safe_err
        · refine ih hl.2 fun v hv => ?_
          rcases List.mem_append.mp hv with hv | hv
          · exact hvs v hv
          · rcases List.mem_cons.mp hv with rfl | hv
            · exact hl.1
            · rw [List.mem_singleton.mp hv]; exact ho collapsed rfl

end ScanView

end AgentVeil
