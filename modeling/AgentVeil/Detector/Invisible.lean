import AgentVeil.Detector.Relocation
import AgentVeil.Detector.Theorems

/-!
# Invisible characters

A text is scanned as if its invisible controls were not there. The range of a finding goes from the
first character that it has to the last one, with the invisible controls between them.
-/

namespace AgentVeil

open Rust

/-- The text without its invisible controls. -/
def visible (s : Str) : Str := s.filter fun c => !isInvisibleControl c

/-- Where byte `n` of the visible text is. -/
def visibleOffset : Str → Nat → Nat
  | [], n => n
  | c :: s, n =>
      if isInvisibleControl c then c.utf8Size + visibleOffset s n
      else if n < c.utf8Size then n
      else c.utf8Size + visibleOffset s (n - c.utf8Size)

theorem visible_cons_of_invisible {c : Char} (h : isInvisibleControl c = true) (s : Str) :
    visible (c :: s) = visible s := by
  simp [visible, h]

theorem visible_cons_of_visible {c : Char} (h : isInvisibleControl c = false) (s : Str) :
    visible (c :: s) = c :: visible s := by
  simp [visible, h]

theorem strictMono_visibleOffset (s : Str) : StrictMono (visibleOffset s) := by
  induction s with
  | nil => exact fun _ _ h => h
  | cons c s ih =>
      intro a b hab
      unfold visibleOffset
      by_cases hc : isInvisibleControl c = true
      · rw [if_pos hc, if_pos hc]
        exact Nat.add_lt_add_left (ih hab) _
      · rw [if_neg hc, if_neg hc]
        by_cases ha : a < c.utf8Size
        · rw [if_pos ha]
          split
          · exact hab
          · exact Nat.lt_of_lt_of_le ha (Nat.le_add_right _ _)
        · rw [if_neg ha, if_neg (by omega)]
          exact Nat.add_lt_add_left (ih (by omega)) _

/-- Offsets after a prefix. -/
theorem visibleOffset_append (p s : Str) (n : Nat) :
    visibleOffset (p ++ s) (len (visible p) + n) = len p + visibleOffset s n := by
  induction p with
  | nil => simp [visible]
  | cons c p ih =>
      rw [List.cons_append, visibleOffset, len_cons]
      by_cases hc : isInvisibleControl c = true
      · rw [if_pos hc, visible_cons_of_invisible hc, ih, Nat.add_assoc]
      · rw [if_neg hc, visible_cons_of_visible (by simpa using hc), len_cons, if_neg (by omega),
          show c.utf8Size + len (visible p) + n - c.utf8Size = len (visible p) + n by omega, ih,
          Nat.add_assoc]

/-! ## The normalized view -/

namespace ScanView

theorem canonicalizeFrom_visible {nfkc : Char → Str} {place : Nat → Nat} {s : Str} {start start' : Nat}
    (h : ∀ n < len (visible s), place (start' + n) = start + visibleOffset s n) :
    canonicalizeFrom nfkc .ok start s
      = (canonicalizeFrom nfkc .ok start' (visible s)).map (relocate place) := by
  induction s generalizing start start' with
  | nil => rfl
  | cons c s ih =>
      by_cases hc : isInvisibleControl c = true
      · rw [visible_cons_of_invisible hc] at h ⊢
        rw [canonicalizeFrom, if_pos hc]
        refine ih fun n hn => ?_
        rw [h n hn, visibleOffset, if_pos hc, Nat.add_assoc]
      · rw [visible_cons_of_visible (by simpa using hc)] at h ⊢
        have hpos := c.utf8Size_pos
        have hsource : (⟨start, start + c.utf8Size⟩ : Span)
            = Span.relocate place ⟨start', start' + c.utf8Size⟩ := by
          obtain ⟨k, hk⟩ := Nat.exists_eq_add_of_lt hpos
          have hfirst := h 0 (by rw [len_cons]; omega)
          have hlast := h k (by rw [len_cons]; omega)
          rw [visibleOffset, if_neg hc, if_pos (by omega)] at hfirst hlast
          rw [Span.relocate, show start' + c.utf8Size = start' + k + 1 by omega, placeEnd, hlast]
          rw [Nat.add_zero] at hfirst
          simp only [hfirst, Span.mk.injEq]
          omega
        have hrest := @ih (start + c.utf8Size) (start' + c.utf8Size) fun n hn => by
          have hn := h (c.utf8Size + n) (by rw [len_cons]; omega)
          rw [visibleOffset, if_neg hc, if_neg (by omega), Nat.add_sub_cancel_left] at hn
          rw [Nat.add_assoc, hn, Nat.add_assoc]
        rw [canonicalizeFrom, canonicalizeFrom, if_neg hc, if_neg hc, hrest, hsource, ok_bind, ok_bind]
        refine map_bind_map fun rest => ?_
        simp [Except.map, relocate]

theorem normalize_visible (nfkc : Char → Str) (source : Str) :
    normalize nfkc source
      = (normalize nfkc (visible source)).map (relocate (visibleOffset source)) := by
  unfold normalize
  have hplace : ∀ n < len (visible source),
      visibleOffset source (0 + n) = 0 + visibleOffset source n := fun n _ => by
    rw [Nat.zero_add, Nat.zero_add]
  rw [canonicalizeFrom_visible hplace]
  exact map_bind_map fun view =>
    removeStructuralContinuations_relocate (strictMono_visibleOffset source) view

end ScanView

/-! ## Findings -/

theorem scanViews_visible (u : Unicode) (source : Str) :
    scanViews u source = (scanViews u (visible source)).map
      (List.map (Prod.map (ScanView.relocate (visibleOffset source)) id)) := by
  have mono := strictMono_visibleOffset source
  unfold scanViews
  rw [ScanView.normalize_visible]
  refine map_bind_map fun normalized => ?_
  rw [ScanView.composedViews_relocate mono]
  exact map_bind_map fun views => ScanView.withCollapsed_relocate mono views []

/-- Scanning a text is scanning its visible text: the same findings in the same order, each at the
characters that it has there. -/
theorem scan_visible (u : Unicode) (scanner : Scanner) (source : Str) :
    scanner.scan u source
      = (scanner.scan u (visible source)).map
          (List.map (Finding.relocate (visibleOffset source))) := by
  have mono := strictMono_visibleOffset source
  unfold Scanner.scan
  rw [scanViews_visible]
  refine map_bind_map fun views => ?_
  have hview : ∀ view, scanView u scanner (Prod.map (ScanView.relocate (visibleOffset source)) id view)
      = (scanView u scanner view).map (List.map (Finding.relocate (visibleOffset source))) :=
    fun view => scanView_relocate mono view.2
  rw [gather_map hview]
  refine map_bind_map fun findings => ?_
  rw [sortBy_map (findingLe_relocate mono), dedupBy_map (sameFinding_relocate mono)]
  rfl

/-! ## Texts of findings -/

/-- A character of the visible text is one of the text. -/
theorem exists_visible_split {s p q : Str} {c : Char} (h : visible s = p ++ c :: q) :
    ∃ p' q', s = p' ++ c :: q' ∧ visible p' = p ∧ visible q' = q ∧ isInvisibleControl c = false := by
  obtain ⟨l₁, l₂, rfl, hp, hl₂⟩ := List.filter_eq_append_iff.mp h
  obtain ⟨x, y, rfl, hx, hc, hy⟩ := List.filter_eq_cons_iff.mp hl₂
  refine ⟨l₁ ++ x, y, by rw [List.append_assoc], ?_, hy, by simpa using hc⟩
  rw [visible, List.filter_append, hp, List.filter_eq_nil_iff.mpr hx, List.append_nil]

theorem visibleOffset_start {c : Char} (hc : isInvisibleControl c = false) (p s : Str) :
    visibleOffset (p ++ c :: s) (len (visible p)) = len p := by
  have h := visibleOffset_append p (c :: s) 0
  rwa [visibleOffset, if_neg (by simp [hc]), if_pos c.utf8Size_pos, Nat.add_zero, Nat.add_zero] at h

theorem placeEnd_visibleOffset {c : Char} (hc : isInvisibleControl c = false) (p s : Str) :
    placeEnd (visibleOffset (p ++ c :: s)) (len (visible p) + c.utf8Size) = len p + c.utf8Size := by
  obtain ⟨k, hk⟩ := Nat.exists_eq_add_of_lt c.utf8Size_pos
  have h := visibleOffset_append p (c :: s) k
  rw [visibleOffset, if_neg (by simp [hc]), if_pos (by omega)] at h
  rw [show len (visible p) + c.utf8Size = len (visible p) + k + 1 by omega, placeEnd, h]
  omega

/-- The text of a relocated range has the text of the range as its visible text. -/
theorem get?_visible {source : Str} {span : Span} (h : SourceRange (visible source) span) :
    ∃ w, get? source (span.relocate (visibleOffset source)) = some w ∧
      get? (visible source) span = some (visible w) := by
  obtain ⟨m, hm⟩ := get?_isSome_of_boundary h.start h.stop (Nat.le_of_lt h.lt)
  obtain ⟨p, q, hs, hstart, hstop⟩ := get?_eq_some_iff.mp hm
  have hlt := h.lt
  cases m with
  | nil =>
      rw [len_nil] at hstop
      omega
  | cons c m =>
      have hfirst : visible source = p ++ c :: (m ++ q) := by rw [hs, List.append_assoc]; rfl
      obtain ⟨p', y, rfl, rfl, hy, hc⟩ := exists_visible_split hfirst
      obtain ⟨m₀, d, hlast⟩ : ∃ m₀ d, c :: m = m₀ ++ [d] :=
        ⟨_, _, (List.dropLast_append_getLast (List.cons_ne_nil c m)).symm⟩
      have hlasts : visible (c :: y) = m₀ ++ d :: q := by
        rw [visible_cons_of_visible hc, hy, ← List.cons_append, hlast, List.append_assoc]
        rfl
      obtain ⟨r, q', hr, rfl, rfl, hd⟩ := exists_visible_split hlasts
      have hw : visible (r ++ [d]) = c :: m := by
        rw [visible, List.filter_append, hlast]
        simp [visible, hd]
      refine ⟨r ++ [d], get?_eq_some_iff.mpr ⟨p', q', ?_, ?_, ?_⟩, by rw [hw]; exact hm⟩
      · rw [hr]
        simp
      · rw [Span.relocate, ← hstart]
        exact (visibleOffset_start hc p' y).symm
      · have hlen : len (visible (p' ++ r)) + d.utf8Size = span.stop := by
          rw [← hstop, ← hstart, hlast, visible, List.filter_append, len_append, len_append]
          simp [visible, Nat.add_assoc]
        have hend := placeEnd_visibleOffset hd (p' ++ r) q'
        rw [hlen, List.append_assoc, ← hr] at hend
        rw [Span.relocate, hend, ← hstart, visibleOffset_start hc]
        simp [Nat.add_assoc]

/-- Invisible controls hide nothing and add nothing. A text scans as its visible text does, with the same
findings in the same order or the same failure, and the text of a finding, without its invisible
controls, is what was found in the visible text. -/
theorem scan_invisible {settings : DetectorSettings}
    (admitted : validateDetectorSettings settings = .ok ()) (u : Unicode) (source : Str) :
    (∀ found, (Scanner.new settings).scan u (visible source) = .ok found →
      (Scanner.new settings).scan u source
          = .ok (found.map (Finding.relocate (visibleOffset source))) ∧
        ∀ f ∈ found, ∃ w, get? source (f.sourceSpan.relocate (visibleOffset source)) = some w ∧
          get? (visible source) f.sourceSpan = some (visible w)) ∧
    ∀ e, (Scanner.new settings).scan u (visible source) = .error e →
      (Scanner.new settings).scan u source = .error e := by
  constructor
  · intro found hs
    refine ⟨by rw [scan_visible, hs]; rfl, fun f hf => get?_visible ?_⟩
    exact scan_sourceRange u (Scanner.configured_new admitted) hs f hf
  · intro e he
    rw [scan_visible, he]
    rfl

/-- An access key with a zero-width space in it. -/
def hiddenKey : Str := "AKI".toList ++ Char.ofNat 0x200B :: 'A' :: List.replicate 16 'A'

theorem scan_invisible_demo : (Scanner.new ⟨[], [], []⟩).scan Unicode.ascii hiddenKey
    = .ok [⟨.credentials, .awsAccessKeyId, .high, ⟨0, 23⟩⟩] := by
  have hfound : (Scanner.new ⟨[], [], []⟩).scan Unicode.ascii (visible hiddenKey)
      = .ok [⟨.credentials, .awsAccessKeyId, .high, ⟨0, 20⟩⟩] := by
    decide +kernel
  exact ((scan_invisible (by decide) Unicode.ascii hiddenKey).1 _ hfound).1

end AgentVeil
