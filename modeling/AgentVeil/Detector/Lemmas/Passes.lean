import AgentVeil.Detector.Lemmas.Separators

/-!
# The passes on text

Every rule takes whole ASCII characters, so a pass over a text leaves the characters around a change
as they are. The passes that put characters in the place of others never fail.
-/

namespace AgentVeil

open Rust

/-- The bytes of escapes and continuations: ASCII, and no opening bracket. -/
def isEscapeByte (b : UInt8) : Bool := b.toNat < 128 && b ≠ 0x5B

/-- The rule takes such bytes, and those are there. -/
structure ByteRule.TakesAscii (rule : ByteRule) : Prop where
  fits : rule.Fits
  ascii : ∀ prev bs o n, rule prev bs = some (o, n) → ∀ b ∈ bs.take n, isEscapeByte b = true

/-- What the rule gives is text. -/
def ByteRule.GivesText (rule : ByteRule) : Prop :=
  ∀ prev bs o n, rule prev bs = some (o, n) → ∃ t, o = bytes t

/-! ## Escapes -/

theorem hex_lt {b : UInt8} {v : Nat} (h : hex b = some v) : isEscapeByte b = true ∧ v < 16 := by
  simp only [hex] at h
  simp only [isEscapeByte, ne_eq, decide_not, Bool.and_eq_true, decide_eq_true_eq,
    Bool.not_eq_true', decide_eq_false_iff_not, ← UInt8.toNat_inj, UInt8.reduceToNat]
  split at h
  · cases h; omega
  split at h
  · cases h; omega
  split at h
  · cases h; omega
  · cases h

theorem parseHexQuad_some {bs : List UInt8} {v : Nat} (h : parseHexQuad bs = some v) :
    bs.length = 4 ∧ (∀ b ∈ bs, isEscapeByte b = true) ∧ v < 65536 := by
  unfold parseHexQuad at h
  split at h
  · simp only [Option.bind_eq_bind, Option.bind_eq_some_iff, Option.some.injEq] at h
    obtain ⟨a, ha, b, hb, c, hc, d, hd, rfl⟩ := h
    obtain ⟨ha, ha'⟩ := hex_lt ha
    obtain ⟨hb, hb'⟩ := hex_lt hb
    obtain ⟨hc, hc'⟩ := hex_lt hc
    obtain ⟨hd, hd'⟩ := hex_lt hd
    exact ⟨rfl, by simp [ha, hb, hc, hd], by omega⟩
  · cases h

theorem decodeUnicodeEscape_some {bs : List UInt8} {t : Str} {n : Nat}
    (h : decodeUnicodeEscape bs = some (t, n)) :
    2 ≤ n ∧ n ≤ bs.length + 2 ∧ ∀ b ∈ bs.take (n - 2), isEscapeByte b = true := by
  simp only [decodeUnicodeEscape, Option.bind_eq_bind, Option.bind_eq_some_iff] at h
  obtain ⟨first, hfirst, h⟩ := h
  obtain ⟨hlen, hascii, _⟩ := parseHexQuad_some hfirst
  rw [List.length_take] at hlen
  split at h
  · split at h
    · cases h
    rename_i hu
    rw [not_not] at hu
    obtain ⟨second, hsecond, h⟩ := Option.bind_eq_some_iff.mp h
    obtain ⟨hlen', hascii', _⟩ := parseHexQuad_some hsecond
    rw [List.length_take, List.length_drop] at hlen'
    split at h
    · obtain ⟨c, _, h⟩ := Option.bind_eq_some_iff.mp h
      cases h
      refine ⟨by omega, by omega, fun b hb => ?_⟩
      -- four digits, a backslash and `u`, four digits
      have hsplit : bs.take 10 = bs.take 4 ++ ((bs.drop 4).take 2 ++ (bs.drop 6).take 4) := by
        rw [show bs.drop 6 = (bs.drop 4).drop 2 by rw [List.drop_drop], ← List.take_add,
          ← List.take_add]
      rw [hsplit, List.mem_append, List.mem_append, hu] at hb
      rcases hb with hb | hb | hb
      · exact hascii b hb
      · simp only [List.mem_cons, List.not_mem_nil, or_false] at hb
        rcases hb with rfl | rfl
        · decide
        · decide
      · exact hascii' b hb
    · cases h
  · split at h
    · cases h
    · obtain ⟨c, _, h⟩ := Option.bind_eq_some_iff.mp h
      cases h
      exact ⟨by omega, by omega, hascii⟩

theorem decodeEscape_some {bs : List UInt8} {t : Str} {n : Nat}
    (h : decodeEscape bs = some (t, n)) :
    2 ≤ n ∧ n ≤ bs.length + 1 ∧ ∀ b ∈ bs.take (n - 1), isEscapeByte b = true := by
  have hone : ∀ (b : UInt8) rest, isEscapeByte b = true → 2 ≤ 2 ∧ 2 ≤ (b :: rest).length + 1 ∧
      ∀ x ∈ (b :: rest).take 1, isEscapeByte x = true := fun b rest hb => by simpa using hb
  unfold decodeEscape at h
  split at h
  · cases h; exact hone _ _ (by decide)
  · cases h; exact hone _ _ (by decide)
  · cases h; exact hone _ _ (by decide)
  · cases h; exact hone _ _ (by decide)
  · cases h; exact hone _ _ (by decide)
  · cases h; exact hone _ _ (by decide)
  · cases h; exact hone _ _ (by decide)
  · cases h; exact hone _ _ (by decide)
  · obtain ⟨hle, hlen, hascii⟩ := decodeUnicodeEscape_some h
    refine ⟨hle, by simpa using hlen, fun b hb => ?_⟩
    rw [show n - 1 = n - 2 + 1 by omega, List.take_succ_cons, List.mem_cons] at hb
    rcases hb with rfl | hb
    · decide
    · exact hascii b hb
  · cases h

/-! ## The rules -/

theorem takesAscii_continuationRule : continuationRule.TakesAscii := by
  refine ⟨ScanView.fits_continuationRule, fun prev bs o n h => ?_⟩
  have hblank : ∀ rest : List UInt8, ∀ b ∈ rest.take
      (rest.takeWhile fun b => b = 0x20 || b = 0x09).length, isEscapeByte b = true := by
    intro rest b hb
    rw [← List.prefix_iff_eq_take.mp (List.takeWhile_prefix _)] at hb
    have := List.all_eq_true.mp List.all_takeWhile b hb
    simp only [Bool.or_eq_true, decide_eq_true_eq] at this
    rcases this with rfl | rfl
    · decide
    · decide
  unfold continuationRule at h
  split at h
  · cases h
    intro b hb
    rw [Nat.add_comm] at hb
    rcases List.mem_cons.mp hb with rfl | hb
    · decide
    rcases List.mem_cons.mp hb with rfl | hb
    · decide
    · exact hblank _ b hb
  · cases h
    intro b hb
    rw [Nat.add_comm] at hb
    rcases List.mem_cons.mp hb with rfl | hb
    · decide
    rcases List.mem_cons.mp hb with rfl | hb
    · decide
    rcases List.mem_cons.mp hb with rfl | hb
    · decide
    · exact hblank _ b hb
  · cases h

theorem jsonEscapeRule_some {prev : Option UInt8} {bs o : List UInt8} {n : Nat}
    (h : jsonEscapeRule prev bs = some (o, n)) :
    ∃ rest t, bs = 0x5C :: rest ∧ o = bytes t ∧ decodeEscape rest = some (t, n) := by
  unfold jsonEscapeRule at h
  split at h
  · obtain ⟨⟨t, m⟩, hd, h⟩ := Option.map_eq_some_iff.mp h
    cases h
    exact ⟨_, t, rfl, rfl, hd⟩
  · cases h

theorem takesAscii_jsonEscapeRule : jsonEscapeRule.TakesAscii := by
  have hrule : ∀ prev bs o n, jsonEscapeRule prev bs = some (o, n) →
      0 < n ∧ n ≤ bs.length ∧ ∀ b ∈ bs.take n, isEscapeByte b = true := by
    intro prev bs o n h
    obtain ⟨rest, t, rfl, rfl, hd⟩ := jsonEscapeRule_some h
    obtain ⟨hle, hlen, hascii⟩ := decodeEscape_some hd
    refine ⟨by omega, hlen, fun b hb => ?_⟩
    rw [show n = n - 1 + 1 by omega, List.take_succ_cons, List.mem_cons] at hb
    rcases hb with rfl | hb
    · decide
    · exact hascii b hb
  exact ⟨fun prev bs o n h => ⟨(hrule prev bs o n h).1, (hrule prev bs o n h).2.1⟩,
    fun prev bs o n h => (hrule prev bs o n h).2.2⟩

theorem percentRule_some {prev : Option UInt8} {bs o : List UInt8} {n : Nat}
    (h : percentRule prev bs = some (o, n)) :
    ∃ a b rest high low, bs = 0x25 :: a :: b :: rest ∧ hex a = some high ∧ hex b = some low ∧
      o = [UInt8.ofNat (high * 16 + low)] ∧ n = 3 := by
  unfold percentRule at h
  split at h
  · simp only [Option.bind_eq_bind, Option.bind_eq_some_iff, Option.some.injEq, Prod.mk.injEq] at h
    obtain ⟨high, hhigh, low, hlow, rfl, rfl⟩ := h
    exact ⟨_, _, _, high, low, rfl, hhigh, hlow, rfl, rfl⟩
  · cases h

theorem takesAscii_percentRule : percentRule.TakesAscii := by
  constructor
  · intro prev bs o n h
    obtain ⟨a, b, rest, high, low, rfl, _, _, _, rfl⟩ := percentRule_some h
    simp
  · intro prev bs o n h x hx
    obtain ⟨a, b, rest, high, low, rfl, ha, hb, _, rfl⟩ := percentRule_some h
    simp only [List.take_succ_cons, List.take_zero, List.mem_cons, List.not_mem_nil, or_false] at hx
    rcases hx with rfl | rfl | rfl
    · decide
    · exact (hex_lt ha).1
    · exact (hex_lt hb).1

theorem takesAscii_separatorRule : separatorRule.TakesAscii := by
  refine ⟨fits_separatorRule, fun prev bs o n h x hx => ?_⟩
  unfold separatorRule at h
  split at h
  · split at h
    · cases h
      obtain rfl := List.mem_singleton.mp hx
      decide
    · cases h
  · cases h

theorem givesText_continuationRule : continuationRule.GivesText := by
  intro prev bs o n h
  unfold continuationRule at h
  split at h
  · cases h; exact ⟨[], rfl⟩
  · cases h; exact ⟨[], rfl⟩
  · cases h

theorem givesText_jsonEscapeRule : jsonEscapeRule.GivesText := by
  intro prev bs o n h
  obtain ⟨_, t, _, rfl, _⟩ := jsonEscapeRule_some h
  exact ⟨t, rfl⟩

theorem givesText_separatorRule : separatorRule.GivesText := by
  intro prev bs o n h
  obtain ⟨rfl, _⟩ := ScanView.separatorRule_length h
  exact ⟨[], rfl⟩

/-! ## Passes over a text -/

/-- Bytes of longer encodings stay. -/
theorem rewrittenBytes_wide {rule : ByteRule} (hr : rule.TakesAscii) {l : List UInt8}
    (hl : ∀ b ∈ l, 128 ≤ b.toNat) (prev : Option UInt8) (bs : List UInt8) :
    rewrittenBytes rule 0 prev (l ++ bs) = l ++ rewrittenBytes rule 0 (lastByte prev l) bs := by
  induction l generalizing prev with
  | nil => rfl
  | cons b l ih =>
      obtain ⟨hb, hl⟩ := List.forall_mem_cons.mp hl
      have hnone : rule prev (b :: (l ++ bs)) = none := by
        cases h : rule prev (b :: (l ++ bs)) with
        | none => rfl
        | some p =>
            obtain ⟨o, n⟩ := p
            have hpos := (hr.fits _ _ _ _ h).1
            have := hr.ascii _ _ _ _ h b (by
              rw [show n = n - 1 + 1 by omega]
              exact List.mem_cons_self)
            simp only [isEscapeByte, Bool.and_eq_true, decide_eq_true_eq] at this
            omega
      simp only [List.cons_append, rewrittenBytes, hnone, ih hl]
      rfl

/-- A pass over a text leaves a text. -/
theorem rewrittenBytes_text {rule : ByteRule} (hr : rule.TakesAscii) (ht : rule.GivesText) (s : Str)
    (skip : Nat) (prev : Option UInt8) (hskip : ∀ b ∈ (bytes s).take skip, isEscapeByte b = true) :
    ∃ t, rewrittenBytes rule skip prev (bytes s) = bytes t := by
  induction s generalizing skip prev with
  | nil => exact ⟨[], by cases skip <;> rfl⟩
  | cons c s ih =>
      cases hc : isAscii c with
      | true =>
          rw [bytes_cons, utf8EncodeChar_of_isAscii hc] at hskip ⊢
          cases skip with
          | succ skip =>
              exact ih skip _ fun b hb => hskip b (List.mem_cons_of_mem _ hb)
          | zero =>
              simp only [List.cons_append, List.nil_append, rewrittenBytes]
              cases h : rule prev (UInt8.ofNat c.toNat :: bytes s) with
              | none =>
                  obtain ⟨t, ht⟩ := ih 0 (some (UInt8.ofNat c.toNat)) (by simp)
                  refine ⟨c :: t, ?_⟩
                  simp only [ht, bytes_cons, utf8EncodeChar_of_isAscii hc]
                  rfl
              | some p =>
                  obtain ⟨o, n⟩ := p
                  obtain ⟨t₁, rfl⟩ := ht _ _ _ _ h
                  have hpos := (hr.fits _ _ _ _ h).1
                  obtain ⟨t₂, h₂⟩ := ih (n - 1) (some (UInt8.ofNat c.toNat)) fun b hb =>
                    hr.ascii _ _ _ _ h b (by
                      rw [show n = n - 1 + 1 by omega]
                      exact List.mem_cons_of_mem _ hb)
                  exact ⟨t₁ ++ t₂, by simp only [h₂, bytes_append]⟩
      | false =>
          have hwide : ∀ b ∈ String.utf8EncodeChar c, 128 ≤ b.toNat := fun b hb =>
            le_of_mem_utf8EncodeChar hc hb
          have hzero : skip = 0 := by
            have hlen := String.length_utf8EncodeChar c
            have := c.utf8Size_pos
            by_contra hne
            cases he : String.utf8EncodeChar c with
            | nil => rw [he] at hlen; simp at hlen; omega
            | cons b l =>
                have h₁ := hwide b (by rw [he]; simp)
                have h₂ := hskip b (by
                  rw [bytes_cons, he, show skip = skip - 1 + 1 by omega]
                  exact List.mem_cons_self)
                simp only [isEscapeByte, Bool.and_eq_true, decide_eq_true_eq] at h₂
                omega
          subst hzero
          obtain ⟨t, ht⟩ := ih 0 (lastByte prev (String.utf8EncodeChar c)) (by simp)
          exact ⟨c :: t, by rw [bytes_cons, rewrittenBytes_wide hr hwide, ht, bytes_cons]⟩

namespace ScanView

variable {source : Str} {view : ScanView} {rule : ByteRule}

theorem rewriteBytes_ok (hv : view.MapsTo source) (hr : rule.TakesAscii) :
    ∃ output, view.rewriteBytes rule = .ok output :=
  rewriteFrom_ok hv hr.fits (by simp)

theorem fromBytes_pairs {ps : List (UInt8 × Span)} {t : Str} (h : ps.map Prod.fst = bytes t) :
    fromBytes (ps.map Prod.fst) (ps.map Prod.snd) = .ok ⟨t, ps.map Prod.snd⟩ := by
  unfold fromBytes
  rw [h, fromUtf8_bytes, ← h, if_neg (by simp)]

/-- A pass that gives text ends in a view. -/
theorem rewriteBytes_view (hv : view.MapsTo source) (hr : rule.TakesAscii) (ht : rule.GivesText) :
    ∃ output w, view.rewriteBytes rule = .ok output ∧
      fromBytes (output.2.map Prod.fst) (output.2.map Prod.snd) = .ok w := by
  obtain ⟨output, hout⟩ := rewriteBytes_ok hv hr
  obtain ⟨t, ht⟩ := rewrittenBytes_text hr ht view.text 0 none (by simp)
  exact ⟨output, _, hout, fromBytes_pairs ((rewriteFrom_bytes hout).trans ht)⟩

theorem removeStructuralContinuations_ok (hv : view.MapsTo source) :
    ∃ w, view.removeStructuralContinuations = .ok w := by
  obtain ⟨output, w, hout, hw⟩ :=
    rewriteBytes_view hv takesAscii_continuationRule givesText_continuationRule
  exact ⟨w, by simp only [removeStructuralContinuations, hout, hw, ok_bind]⟩

theorem decodeJsonEscapes_ok (hv : view.MapsTo source) : ∃ o, view.decodeJsonEscapes = .ok o := by
  obtain ⟨output, w, hout, hw⟩ :=
    rewriteBytes_view hv takesAscii_jsonEscapeRule givesText_jsonEscapeRule
  simp only [decodeJsonEscapes, hout, hw, ok_bind]
  split
  · exact ⟨_, rfl⟩
  · exact ⟨_, rfl⟩

theorem collapseCandidateSeparators_ok (hv : view.MapsTo source) :
    ∃ o, view.collapseCandidateSeparators = .ok o := by
  obtain ⟨output, w, hout, hw⟩ :=
    rewriteBytes_view hv takesAscii_separatorRule givesText_separatorRule
  simp only [collapseCandidateSeparators, hout, hw, ok_bind]
  split
  · exact ⟨_, rfl⟩
  · exact ⟨_, rfl⟩

/-- Percent decoding fails only where the decoded bytes are no text. -/
theorem decodePercentEncoding_cases (hv : view.MapsTo source) :
    (∃ o, view.decodePercentEncoding = .ok o) ∨
      view.decodePercentEncoding = err .invalidPercentEncoding := by
  obtain ⟨output, hout⟩ := rewriteBytes_ok hv takesAscii_percentRule
  simp only [decodePercentEncoding, hout, ok_bind]
  split
  · exact .inl ⟨_, rfl⟩
  · cases ht : fromUtf8 (output.2.map Prod.fst) with
    | none => exact .inr rfl
    | some t =>
        rw [fromBytes_pairs (bytes_of_fromUtf8 ht).symm]
        exact .inl ⟨_, rfl⟩

theorem canonicalizeFrom_exists (nfkc : Char → Str) {sourceOf : Span → Fallible DetectorError Span}
    {start : Nat} {s : Str} (hs : ∀ a c b, s = a ++ c :: b →
      ∃ r, sourceOf ⟨start + len a, start + len a + c.utf8Size⟩ = .ok r) :
    ∃ w, canonicalizeFrom nfkc sourceOf start s = .ok w := by
  induction s generalizing start with
  | nil => exact ⟨_, rfl⟩
  | cons c s ih =>
      obtain ⟨r, hr⟩ := hs [] c s rfl
      obtain ⟨w, hw⟩ := @ih (start + c.utf8Size) fun a d b h => by
        have := hs (c :: a) d b (by rw [h]; rfl)
        rwa [len_cons, ← Nat.add_assoc] at this
      simp only [len_nil, Nat.add_zero] at hr
      simp only [canonicalizeFrom, hr, hw, ok_bind]
      split
      · exact ⟨_, rfl⟩
      · exact ⟨_, rfl⟩

theorem canonicalize_ok (nfkc : Char → Str) (hv : view.MapsTo source) :
    ∃ w, canonicalize nfkc view = .ok w := by
  obtain ⟨w, hw⟩ := @canonicalizeFrom_exists nfkc view.combinedSource 0 view.text fun a c b h => by
    have := c.utf8Size_pos
    obtain ⟨r, hr, _⟩ := @combinedSource_ok _ _ hv ⟨0 + len a, 0 + len a + c.utf8Size⟩
      (by simp only; omega) (by rw [h, len_append, len_cons]; simp only; omega)
    exact ⟨r, hr⟩
  have hmaps := (@safe_canonicalizeFrom source nfkc view.combinedSource 0 view.text
    fun _ _ _ _ => safe_combinedSource hv).2 w hw
  obtain ⟨w', hw'⟩ := removeStructuralContinuations_ok hmaps
  exact ⟨w', by simp only [canonicalize, hw, hw', ok_bind]⟩

theorem normalize_ok (nfkc : Char → Str) (source : Str) :
    ∃ w, normalize nfkc source = .ok w := by
  obtain ⟨w, hw⟩ := @canonicalizeFrom_exists nfkc .ok 0 source fun _ _ _ _ => ⟨_, rfl⟩
  have hmaps := (safe_canonicalizeFrom_ok nfkc source).2 w hw
  obtain ⟨w', hw'⟩ := removeStructuralContinuations_ok hmaps
  exact ⟨w', by simp only [normalize, hw, hw', ok_bind]⟩

end ScanView

end AgentVeil
