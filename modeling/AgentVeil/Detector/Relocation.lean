import AgentVeil.Detector.Scanner
import AgentVeil.Rust.Relocation

/-!
# Scanning does not look at the sources

The sources of a view are carried along: every pass and every detector treats a view with relocated
sources as it treats the view.
-/

namespace AgentVeil

open Rust

/-- The finding with its source relocated. -/
def Finding.relocate (place : Nat → Nat) (f : Finding) : Finding :=
  { f with sourceSpan := f.sourceSpan.relocate place }

namespace ScanView

variable {place : Nat → Nat}

/-- The view with its sources relocated. -/
def relocate (place : Nat → Nat) (view : ScanView) : ScanView :=
  ⟨view.text, view.sourceByByte.map (Span.relocate place)⟩

@[simp] theorem relocate_text (view : ScanView) : (view.relocate place).text = view.text := rfl

@[simp] theorem length_relocate (view : ScanView) :
    (view.relocate place).sourceByByte.length = view.sourceByByte.length := List.length_map _

theorem relocate_injective (mono : StrictMono place) : Function.Injective (relocate place) := by
  rintro ⟨text, sources⟩ ⟨text', sources'⟩ h
  obtain ⟨rfl, hsources⟩ := ScanView.mk.inj h
  obtain rfl := List.map_injective_iff.mpr (Span.relocate_injective mono) hsources
  rfl

/-! ## Passes -/

theorem combinedSource_relocate (mono : StrictMono place) (view : ScanView) (span : Span) :
    (view.relocate place).combinedSource span
      = (view.combinedSource span).map (Span.relocate place) := by
  unfold combinedSource
  rw [length_relocate]
  split
  · rfl
  rw [relocate, ← List.map_drop, ← List.map_take]
  generalize (view.sourceByByte.drop span.start).take (span.stop - span.start) = mappings
  simp only [List.map_map]
  have hstart : mappings.map (Span.start ∘ Span.relocate place)
      = (mappings.map Span.start).map place := by
    rw [List.map_map]
    rfl
  have hstop : mappings.map (Span.stop ∘ Span.relocate place)
      = (mappings.map Span.stop).map (placeEnd place) := by
    rw [List.map_map]
    rfl
  rw [hstart, hstop, min?_map mono.monotone, max?_map (strictMono_placeEnd mono).monotone]
  cases (mappings.map Span.start).min? with
  | none => rfl
  | some start =>
      cases (mappings.map Span.stop).max? with
      | none => rfl
      | some stop =>
          simp only [Option.map_some, placeEnd_le_iff mono]
          split
          · rfl
          · rfl

theorem finding_relocate (mono : StrictMono place) (view : ScanView) (span : Span)
    (dataClass : DataClass) (detector : DetectorId) (confidence : Confidence) :
    (view.relocate place).finding span dataClass detector confidence
      = (view.finding span dataClass detector confidence).map (Finding.relocate place) := by
  unfold finding
  rw [combinedSource_relocate mono]
  exact map_bind_map fun _ => rfl

theorem fromBytes_relocate (bytes : List UInt8) (mappings : List Span) :
    fromBytes bytes (mappings.map (Span.relocate place))
      = (fromBytes bytes mappings).map (relocate place) := by
  unfold fromBytes
  rw [List.length_map]
  split
  · rfl
  · cases fromUtf8 bytes with
    | none => rfl
    | some text => rfl

/-- The bytes of a pass with their sources relocated. -/
def relocateBytes (place : Nat → Nat) (output : List (UInt8 × Span)) : List (UInt8 × Span) :=
  output.map (Prod.map id (Span.relocate place))

theorem replaced_relocate (mono : StrictMono place) (view : ScanView) (output : List UInt8)
    (span : Span) :
    (view.relocate place).replaced output span
      = (view.replaced output span).map (relocateBytes place) := by
  unfold replaced
  split
  · rfl
  rw [combinedSource_relocate mono]
  cases view.combinedSource span with
  | error e => rfl
  | ok source => simp [Except.map, relocateBytes]

theorem rewriteFrom_relocate (mono : StrictMono place) (view : ScanView) (rule : ByteRule)
    (skip : Nat) (prev : Option UInt8) (index : Nat) (bs : List UInt8) :
    (view.relocate place).rewriteFrom rule skip prev index bs
      = (view.rewriteFrom rule skip prev index bs).map (Prod.map id (relocateBytes place)) := by
  induction bs generalizing skip prev index with
  | nil =>
      cases skip with
      | _ => rfl
  | cons b bs ih =>
      cases skip with
      | succ skip => exact ih skip (some b) (index + 1)
      | zero =>
          simp only [rewriteFrom]
          cases rule prev (b :: bs) with
          | none =>
              simp only [relocate, List.getElem?_map]
              cases view.sourceByByte[index]? with
              | none => rfl
              | some source =>
                  simp only [Option.map_some, orPanic, ok_bind]
                  rw [← relocate, ih]
                  exact map_bind_map fun _ => rfl
          | some changed =>
              simp only
              rw [replaced_relocate mono, ih]
              refine map_bind_map fun out => map_bind_map fun tail => ?_
              simp [Except.map, relocateBytes]

theorem rewriteBytes_relocate (mono : StrictMono place) (view : ScanView) (rule : ByteRule) :
    (view.relocate place).rewriteBytes rule
      = (view.rewriteBytes rule).map (Prod.map id (relocateBytes place)) :=
  rewriteFrom_relocate mono view rule 0 none 0 _

@[simp] theorem map_fst_relocateBytes (output : List (UInt8 × Span)) :
    (relocateBytes place output).map Prod.fst = output.map Prod.fst := by
  simp [relocateBytes]

@[simp] theorem map_snd_relocateBytes (output : List (UInt8 × Span)) :
    (relocateBytes place output).map Prod.snd
      = (output.map Prod.snd).map (Span.relocate place) := by
  simp [relocateBytes]

theorem removeStructuralContinuations_relocate (mono : StrictMono place) (view : ScanView) :
    (view.relocate place).removeStructuralContinuations
      = view.removeStructuralContinuations.map (relocate place) := by
  unfold removeStructuralContinuations
  rw [rewriteBytes_relocate mono]
  refine map_bind_map fun output => ?_
  simp only [Prod.map_snd, map_fst_relocateBytes, map_snd_relocateBytes]
  exact fromBytes_relocate _ _

theorem fromBytes_some (bytes : List UInt8) (mappings : List Span) :
    (fromBytes bytes (mappings.map (Span.relocate place))).map some
      = ((fromBytes bytes mappings).map some).map (Option.map (relocate place)) := by
  rw [fromBytes_relocate]
  cases fromBytes bytes mappings with
  | error e => rfl
  | ok view => rfl

theorem decodeJsonEscapes_relocate (mono : StrictMono place) (view : ScanView) :
    (view.relocate place).decodeJsonEscapes
      = view.decodeJsonEscapes.map (Option.map (relocate place)) := by
  unfold decodeJsonEscapes
  rw [rewriteBytes_relocate mono]
  refine map_bind_map fun output => ?_
  simp only [Prod.map_fst, Prod.map_snd, id, map_fst_relocateBytes, map_snd_relocateBytes]
  split
  · rfl
  · exact fromBytes_some _ _

theorem decodePercentEncoding_relocate (mono : StrictMono place) (view : ScanView) :
    (view.relocate place).decodePercentEncoding
      = view.decodePercentEncoding.map (Option.map (relocate place)) := by
  unfold decodePercentEncoding
  rw [rewriteBytes_relocate mono]
  refine map_bind_map fun output => ?_
  simp only [Prod.map_fst, Prod.map_snd, id, map_fst_relocateBytes, map_snd_relocateBytes]
  split
  · rfl
  split
  · rfl
  · exact fromBytes_some _ _

theorem collapseCandidateSeparators_relocate (mono : StrictMono place) (view : ScanView) :
    (view.relocate place).collapseCandidateSeparators
      = view.collapseCandidateSeparators.map (Option.map (relocate place)) := by
  unfold collapseCandidateSeparators
  rw [rewriteBytes_relocate mono]
  refine map_bind_map fun output => ?_
  simp only [Prod.map_fst, Prod.map_snd, id, map_fst_relocateBytes, map_snd_relocateBytes]
  split
  · rfl
  · exact fromBytes_some _ _

theorem canonicalizeFrom_relocate {nfkc : Char → Str}
    {sourceOf sourceOf' : Span → Fallible DetectorError Span}
    (h : ∀ span, sourceOf' span = (sourceOf span).map (Span.relocate place)) (start : Nat) (s : Str) :
    canonicalizeFrom nfkc sourceOf' start s
      = (canonicalizeFrom nfkc sourceOf start s).map (relocate place) := by
  induction s generalizing start with
  | nil => rfl
  | cons c s ih =>
      simp only [canonicalizeFrom]
      split
      · exact ih _
      · rw [h, ih]
        refine map_bind_map fun source => map_bind_map fun rest => ?_
        simp [Except.map, relocate]

theorem canonicalize_relocate (mono : StrictMono place) (nfkc : Char → Str) (view : ScanView) :
    (view.relocate place).canonicalize nfkc = (view.canonicalize nfkc).map (relocate place) := by
  unfold canonicalize
  rw [relocate_text, canonicalizeFrom_relocate (combinedSource_relocate mono view)]
  exact map_bind_map fun view => removeStructuralContinuations_relocate mono view

/-! ## Composed views -/

theorem canonicalizeDecoded_relocate (mono : StrictMono place) (u : Unicode)
    (decoded : Option ScanView) :
    canonicalizeDecoded u (decoded.map (relocate place))
      = (canonicalizeDecoded u decoded).map (List.map (relocate place)) := by
  cases decoded with
  | none => rfl
  | some view =>
      simp only [Option.map_some, canonicalizeDecoded]
      rw [canonicalize_relocate mono]
      exact map_bind_map fun _ => rfl

theorem decodings_relocate (mono : StrictMono place) (u : Unicode) (view : ScanView) :
    decodings u (view.relocate place) = (decodings u view).map (List.map (relocate place)) := by
  unfold decodings
  rw [decodeJsonEscapes_relocate mono, decodePercentEncoding_relocate mono]
  refine map_bind_map fun escaped => ?_
  rw [canonicalizeDecoded_relocate mono]
  refine map_bind_map fun escapes => map_bind_map fun decoded => ?_
  rw [canonicalizeDecoded_relocate mono]
  refine map_bind_map fun percent => ?_
  rw [← List.map_append]
  rfl

theorem composeFrom_relocate (mono : StrictMono place) (u : Unicode) (maxOutputBytes fuel : Nat)
    (queue : List (ScanView × Nat)) (seen views : List ScanView) :
    composeFrom u maxOutputBytes fuel (queue.map (Prod.map (relocate place) id))
        (seen.map (relocate place)) (views.map (relocate place))
      = (composeFrom u maxOutputBytes fuel queue seen views).map (List.map (relocate place)) := by
  induction fuel generalizing queue seen views with
  | zero =>
      cases queue with
      | nil => rfl
      | cons item queue => rfl
  | succ fuel ih =>
      cases queue with
      | nil => rfl
      | cons item queue =>
          obtain ⟨view, depth⟩ := item
          have hseen : view.relocate place ∈ seen.map (relocate place) ↔ view ∈ seen :=
            List.mem_map_of_injective (relocate_injective mono)
          have hnext : ∀ decoded : List ScanView,
              composeFrom u maxOutputBytes fuel
                  (queue.map (Prod.map (relocate place) id)
                    ++ (decoded.map (relocate place)).map (·, depth + 1))
                  (view.relocate place :: seen.map (relocate place))
                  (views.map (relocate place) ++ [view.relocate place])
                = (composeFrom u maxOutputBytes fuel (queue ++ decoded.map (·, depth + 1))
                    (view :: seen) (views ++ [view])).map (List.map (relocate place)) := by
            intro decoded
            have hmap := ih (queue ++ decoded.map (·, depth + 1)) (view :: seen) (views ++ [view])
            simpa [Function.comp_def] using hmap
          simp only [List.map_cons, Prod.map_apply, id, composeFrom, hseen, List.length_map]
          by_cases hs : view ∈ seen
          · rw [if_pos hs, if_pos hs]
            exact ih queue seen views
          rw [if_neg hs, if_neg hs]
          by_cases hv : maxRegularViews ≤ views.length
          · rw [if_pos hv, if_pos hv]
            rfl
          rw [if_neg hv, if_neg hv]
          by_cases hl : maxOutputBytes < len view.text
          · rw [if_pos hl, if_pos (show maxOutputBytes < len (view.relocate place).text from hl)]
            rfl
          rw [if_neg hl, if_neg (show ¬maxOutputBytes < len (view.relocate place).text from hl)]
          by_cases hd : maxDecodeLayers ≤ depth
          · rw [if_pos hd, if_pos hd]
            simpa using hnext []
          rw [if_neg hd, if_neg hd]
          rw [decodings_relocate mono]
          exact map_bind_map hnext

theorem composedViews_relocate (mono : StrictMono place) (u : Unicode) (root : ScanView) :
    composedViews u (root.relocate place) = (composedViews u root).map (List.map (relocate place)) := by
  unfold composedViews
  rw [length_relocate]
  exact composeFrom_relocate mono u _ 7 [(root, 0)] [] []

theorem withCollapsed_relocate (mono : StrictMono place) (rest : List ScanView)
    (views : List (ScanView × Bool)) :
    withCollapsed (rest.map (relocate place)) (views.map (Prod.map (relocate place) id))
      = (withCollapsed rest views).map (List.map (Prod.map (relocate place) id)) := by
  induction rest generalizing views with
  | nil => rfl
  | cons view rest ih =>
      simp only [List.map_cons, withCollapsed, List.length_map]
      split
      · rfl
      rw [collapseCandidateSeparators_relocate mono]
      refine map_bind_map fun collapsed => ?_
      cases collapsed with
      | none => simpa using ih (views ++ [(view, false)])
      | some collapsed =>
          simp only [Option.map_some]
          split
          · rfl
          · simpa using ih (views ++ [(view, false), (collapsed, true)])

end ScanView

/-! ## Detectors -/

section Detectors

variable {place : Nat → Nat} {u : Unicode} {scanner : Scanner} {view : ScanView}

/-- One finding for a range. -/
theorem findingList_relocate (mono : StrictMono place) (span : Span) (dataClass : DataClass)
    (detector : DetectorId) (confidence : Confidence) :
    (do
      let f ← (view.relocate place).finding span dataClass detector confidence
      .ok [f] : Fallible DetectorError (List Finding))
      = (do
          let f ← view.finding span dataClass detector confidence
          .ok [f] : Fallible DetectorError (List Finding)).map (List.map (Finding.relocate place)) := by
  rw [ScanView.finding_relocate mono]
  exact map_bind_map fun _ => rfl

theorem scanPrivateKeysFrom_relocate (mono : StrictMono place) (fuel cursor : Nat) :
    scanPrivateKeysFrom (view.relocate place) fuel cursor
      = (scanPrivateKeysFrom view fuel cursor).map (List.map (Finding.relocate place)) := by
  induction fuel generalizing cursor with
  | zero => rfl
  | succ fuel ih =>
      simp only [scanPrivateKeysFrom, ScanView.relocate_text]
      refine bind_map fun rest => ?_
      cases findStr beginMarker rest with
      | none => rfl
      | some relative =>
          refine bind_map fun afterBegin => ?_
          cases findStr dashes afterBegin with
          | none => exact findingList_relocate mono _ _ _ _
          | some labelEnd =>
              refine bind_map fun label => ?_
              split
              · exact ih _
              refine bind_map fun body => ?_
              cases findStr (endMarker label) body with
              | none => exact findingList_relocate mono _ _ _ _
              | some stop =>
                  simp only
                  rw [ScanView.finding_relocate mono, ih]
                  exact map_bind_map fun f => map_bind_map fun rest => rfl

theorem scanPattern_relocate (mono : StrictMono place) (pattern : PatternDetector) :
    scanPattern pattern (view.relocate place)
      = (scanPattern pattern view).map (List.map (Finding.relocate place)) :=
  gather_map_id (fun _ => findingList_relocate mono _ _ _ _) _

theorem scanEnvAssignments_relocate (mono : StrictMono place) :
    scanEnvAssignments (view.relocate place)
      = (scanEnvAssignments view).map (List.map (Finding.relocate place)) := by
  refine gather_map_id (fun m => ?_) _
  cases m.group with
  | none => rfl
  | some candidate =>
      simp only [ScanView.relocate_text]
      split
      · rfl
      · exact bind_map fun rest => findingList_relocate mono _ _ _ _

theorem scanPrivateIpv4_relocate (mono : StrictMono place) :
    scanPrivateIpv4 (view.relocate place)
      = (scanPrivateIpv4 view).map (List.map (Finding.relocate place)) := by
  refine gather_map_id (fun m => ?_) _
  split
  · exact findingList_relocate mono _ _ _ _
  · rfl

theorem scanPhone_relocate (mono : StrictMono place) :
    scanPhone (view.relocate place)
      = (scanPhone view).map (List.map (Finding.relocate place)) := by
  refine gather_map_id (fun m => bind_map fun context => ?_) _
  split
  · exact findingList_relocate mono _ _ _ _
  · rfl

theorem scanSuffixAt_relocate (mono : StrictMono place) (suffix : Str) (start : Nat) :
    scanSuffixAt u (view.relocate place) suffix start
      = (scanSuffixAt u view suffix start).map (List.map (Finding.relocate place)) := by
  refine bind_map fun before => ?_
  simp only [ScanView.relocate_text]
  split
  all_goals
    split
    · rfl
    refine bind_map fun boundary => ?_
    split
    · exact findingList_relocate mono _ _ _ _
    · rfl

theorem scanTermAt_relocate (mono : StrictMono place) (term : Str) (start : Nat) :
    scanTermAt u (view.relocate place) term start
      = (scanTermAt u view term start).map (List.map (Finding.relocate place)) := by
  refine bind_map fun boundary => ?_
  split
  · exact findingList_relocate mono _ _ _ _
  · rfl

theorem scanHomeAt_relocate (mono : StrictMono place) (start : Nat) :
    scanHomeAt (view.relocate place) start
      = (scanHomeAt view start).map (List.map (Finding.relocate place)) :=
  bind_map fun _ => findingList_relocate mono _ _ _ _

theorem scanConfigured_relocate (mono : StrictMono place) :
    scanConfigured u scanner (view.relocate place)
      = (scanConfigured u scanner view).map (List.map (Finding.relocate place)) := by
  unfold scanConfigured
  simp only [ScanView.relocate_text]
  rw [gather_map_id (fun suffix => gather_map_id (scanSuffixAt_relocate mono suffix) _),
    gather_map_id (fun term => gather_map_id (scanTermAt_relocate mono term) _),
    gather_map_id (fun _ => gather_map_id (scanHomeAt_relocate mono) _)]
  refine map_bind_map fun hostnames => map_bind_map fun terms => map_bind_map fun paths => ?_
  rw [← List.map_append, ← List.map_append]
  rfl

/-- The detectors find the same on a view with relocated sources. -/
theorem scanView_relocate (mono : StrictMono place) (secret : Bool) :
    scanView u scanner (view.relocate place, secret)
      = (scanView u scanner (view, secret)).map (List.map (Finding.relocate place)) := by
  unfold scanView
  simp only
  rw [gather_map_id (fun pattern => scanPattern_relocate mono pattern), scanPrivateKeys,
    scanPrivateKeysFrom_relocate mono, scanEnvAssignments_relocate mono, scanEmail,
    scanPattern_relocate mono, scanPrivateIpv4_relocate mono, scanPhone_relocate mono,
    scanConfigured_relocate mono]
  refine map_bind_map fun patterns => map_bind_map fun privateKeys =>
    map_bind_map fun assignments => ?_
  split
  · simp only [← List.map_append]
    rfl
  · refine map_bind_map fun emails => map_bind_map fun addresses => map_bind_map fun phones =>
      map_bind_map fun configured => ?_
    simp only [← List.map_append]
    rfl

theorem findingLe_relocate (mono : StrictMono place) (a b : Finding) :
    findingLe (a.relocate place) (b.relocate place) = findingLe a b := by
  rw [Bool.eq_iff_iff]
  simp only [findingLe, Bool.or_eq_true, Bool.and_eq_true, decide_eq_true_eq]
  simp only [Finding.relocate, Span.relocate, mono.lt_iff_lt, mono.injective.eq_iff,
    (strictMono_placeEnd mono).lt_iff_lt, (strictMono_placeEnd mono).injective.eq_iff]

theorem sameFinding_relocate (mono : StrictMono place) (a b : Finding) :
    sameFinding (a.relocate place) (b.relocate place) = sameFinding a b := by
  rw [Bool.eq_iff_iff]
  simp only [sameFinding, Bool.and_eq_true, decide_eq_true_eq]
  simp only [Finding.relocate, (Span.relocate_injective mono).eq_iff]

end Detectors

end AgentVeil
