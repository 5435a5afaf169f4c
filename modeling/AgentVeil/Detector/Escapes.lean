import AgentVeil.Detector.Coverage
import AgentVeil.Detector.Lemmas.Passes

/-!
# Escaped text decodes to itself

A text spelled with JSON escapes, or with percent escapes, decodes to the text, and every decoded byte
maps to the sources of the escape that it came from.
-/

namespace AgentVeil

open Rust

/-! ## Spellings -/

/-- A hexadecimal digit, in either case. -/
def HexDigit (v : Nat) (c : Char) : Prop :=
  v < 16 ∧ (c = Nat.digitChar v ∨ c = (Nat.digitChar v).toUpper)

/-- The four digits of a number. -/
inductive HexQuad (n : Nat) : Str → Prop where
  | digits {a b c d : Char} : HexDigit (n / 4096) a → HexDigit (n / 256 % 16) b →
      HexDigit (n / 16 % 16) c → HexDigit (n % 16) d → HexQuad n [a, b, c, d]

/-- The characters with a short escape, and the letter of it. -/
def shortEscapes : List (Char × Char) :=
  [('"', '"'), ('\\', '\\'), ('/', '/'), (Char.ofNat 0x08, 'b'), (Char.ofNat 0x0C, 'f'), ('\n', 'n'),
    ('\r', 'r'), ('\t', 't')]

/-- The spellings of a character in a JSON string. -/
inductive JsonSpelling (c : Char) : Str → Prop where
  | literal : c ≠ '\\' → JsonSpelling c [c]
  | short {e : Char} : (c, e) ∈ shortEscapes → JsonSpelling c ['\\', e]
  | unicode {q : Str} : c.toNat < 0x10000 → HexQuad c.toNat q → JsonSpelling c ('\\' :: 'u' :: q)
  | pair {q r : Str} : 0x10000 ≤ c.toNat → HexQuad (0xD800 + (c.toNat - 0x10000) / 1024) q →
      HexQuad (0xDC00 + (c.toNat - 0x10000) % 1024) r →
      JsonSpelling c ('\\' :: 'u' :: q ++ '\\' :: 'u' :: r)

/-- The percent escape of a byte. -/
inductive PercentByte (b : UInt8) : Str → Prop where
  | escape {high low : Char} : HexDigit (b.toNat / 16) high → HexDigit (b.toNat % 16) low →
      PercentByte b ['%', high, low]

/-- The percent escapes of some bytes, one after the other. -/
inductive PercentBytes : List UInt8 → Str → Prop where
  | nil : PercentBytes [] []
  | cons {b bs e t} : PercentByte b e → PercentBytes bs t → PercentBytes (b :: bs) (e ++ t)

/-- The spellings of a character in a percent-encoded text. -/
inductive PercentSpelling (c : Char) : Str → Prop where
  | literal : c ≠ '%' → PercentSpelling c [c]
  | escaped {t : Str} : PercentBytes (String.utf8EncodeChar c) t → PercentSpelling c t

/-! ## Sources -/

/-- The least range with all of these inside. -/
def hull (ranges : List Span) : Span :=
  ⟨(ranges.map Span.start).min?.getD 0, (ranges.map Span.stop).max?.getD 0⟩

/-- The sources of a decoded text; each part takes so many bytes of the text and gives so many. -/
def partSources : List Span → List (Nat × Nat) → List Span
  | _, [] => []
  | sources, (n, m) :: parts =>
      List.replicate m (hull (sources.take n)) ++ partSources (sources.drop n) parts

/-- The bytes of a literal stand for themselves, and an escape for its character. -/
def jsonParts (piece : Char × Str) : List (Nat × Nat) :=
  if piece.2 = [piece.1] then List.replicate piece.1.utf8Size (1, 1)
  else [(len piece.2, piece.1.utf8Size)]

/-- The bytes of a literal stand for themselves, and each escape for its byte. -/
def percentParts (piece : Char × Str) : List (Nat × Nat) :=
  if piece.2 = [piece.1] then List.replicate piece.1.utf8Size (1, 1)
  else List.replicate piece.1.utf8Size (3, 1)

/-! ## Passes over a spelled text -/

/-- A part of a spelled text for a rule: a byte that the rule leaves, or an escape. -/
inductive SpelledPart (rule : ByteRule) : List UInt8 × List UInt8 → Prop where
  | literal {b : UInt8} : (∀ prev bs, rule prev (b :: bs) = none) → SpelledPart rule ([b], [b])
  | escape {o e : List UInt8} : e ≠ [] → o ≠ [] →
      (∀ prev bs, rule prev (e ++ bs) = some (o, e.length)) → SpelledPart rule (o, e)

namespace ScanView

variable {source : Str} {view : ScanView} {rule : ByteRule}

theorem combinedSource_hull (hv : view.MapsTo source) {i n : Nat} (hn : 0 < n)
    (hle : i + n ≤ len view.text) :
    view.combinedSource ⟨i, i + n⟩ = .ok (hull ((view.sourceByByte.drop i).take n)) := by
  obtain ⟨r, hr, _⟩ := @combinedSource_ok _ _ hv ⟨i, i + n⟩ (by simp only; omega) hle
  have hr' := hr
  unfold combinedSource at hr
  split at hr
  · cases hr
  simp only [Nat.add_sub_cancel_left] at hr
  split at hr
  swap
  · cases hr
  rename_i start stop hmin hmax
  split at hr
  · cases hr
  cases hr
  simp only [hull, hmin, hmax, Option.getD_some]
  exact hr'

theorem rewriteFrom_skip {prev : Option UInt8} {index : Nat} (l bs : List UInt8) :
    view.rewriteFrom rule l.length prev index (l ++ bs)
      = view.rewriteFrom rule 0 (lastByte prev l) (index + l.length) bs := by
  induction l generalizing prev index with
  | nil => rfl
  | cons b l ih =>
      simp only [List.length_cons, List.cons_append, rewriteFrom, ih]
      rw [Nat.add_assoc, Nat.add_comm 1]
      rfl

theorem rewriteFrom_spelled (hv : view.MapsTo source) {prev : Option UInt8} {index : Nat}
    {parts : List (List UInt8 × List UInt8)} (hparts : ∀ p ∈ parts, SpelledPart rule p)
    (hlen : index + (parts.flatMap Prod.snd).length = len view.text) :
    ∃ output, view.rewriteFrom rule 0 prev index (parts.flatMap Prod.snd) = .ok output ∧
      ((∃ p ∈ parts, p.1 ≠ p.2) → output.1 = true) ∧
      output.2.map Prod.fst = parts.flatMap Prod.fst ∧
      output.2.map Prod.snd = partSources (view.sourceByByte.drop index)
        (parts.map fun p => (p.2.length, p.1.length)) := by
  induction parts generalizing prev index with
  | nil => exact ⟨_, rfl, by simp, rfl, rfl⟩
  | cons p parts ih =>
      obtain ⟨hp, hrest⟩ := List.forall_mem_cons.mp hparts
      rw [List.flatMap_cons, List.length_append, ← Nat.add_assoc] at hlen
      cases hp with
      | @literal b hnone =>
          obtain ⟨tail, htail, hflag, hfst, hsnd⟩ := @ih (some b) (index + 1) hrest hlen
          have hlt : index < view.sourceByByte.length := by
            rw [hv.length]
            simp only [List.length_singleton] at hlen
            omega
          have hhull : hull [view.sourceByByte[index]] = view.sourceByByte[index] := rfl
          refine ⟨(tail.1, (b, view.sourceByByte[index]) :: tail.2), ?_, ?_, ?_, ?_⟩
          · simp only [List.flatMap_cons, List.cons_append, List.nil_append, rewriteFrom, hnone,
              List.getElem?_eq_getElem hlt, orPanic, htail, ok_bind]
          · simpa using hflag
          · simp [hfst]
          · rw [List.map_cons, hsnd, List.map_cons, partSources, List.drop_drop,
              List.drop_eq_getElem_cons hlt]
            simp only [List.length_singleton, List.take_succ_cons, List.take_zero, hhull]
            rfl
      | @escape o e he ho hrule =>
          obtain ⟨b, e', rfl⟩ := List.exists_cons_of_ne_nil he
          simp only [List.length_cons] at hlen hrule
          obtain ⟨tail, htail, _, hfst, hsnd⟩ :=
            @ih (lastByte (some b) e') (index + (e'.length + 1)) hrest hlen
          have hhull := @combinedSource_hull _ _ hv index (e'.length + 1) (by omega) (by omega)
          have hskip := @rewriteFrom_skip view rule (some b) (index + 1) e' (parts.flatMap Prod.snd)
          rw [Nat.add_assoc, Nat.add_comm 1, htail] at hskip
          refine ⟨(true, o.map (·, hull ((view.sourceByByte.drop index).take (e'.length + 1)))
            ++ tail.2), ?_, fun _ => rfl, ?_, ?_⟩
          · have hr := hrule prev (parts.flatMap Prod.snd)
            rw [List.cons_append] at hr
            simp only [List.flatMap_cons, List.cons_append, rewriteFrom, hr, replaced, if_neg ho, hhull,
              Nat.add_sub_cancel, hskip]
            rfl
          · simp [hfst, Function.comp_def]
          · rw [List.map_append, hsnd, List.map_cons, partSources, List.drop_drop]
            simp [Function.comp_def, List.map_const']

end ScanView

/-! ## Pieces -/

/-- The piece spells its character in parts of these sizes. -/
def SpelledPiece (rule : ByteRule) (sizes : List (Nat × Nat)) (piece : Char × Str) : Prop :=
  ∃ parts : List (List UInt8 × List UInt8), (∀ p ∈ parts, SpelledPart rule p) ∧
    parts.flatMap Prod.snd = bytes piece.2 ∧ parts.flatMap Prod.fst = bytes [piece.1] ∧
    parts.map (fun p => (p.2.length, p.1.length)) = sizes ∧
    (piece.2 ≠ [piece.1] → ∃ p ∈ parts, p.1 ≠ p.2)

theorem spelledPiece_literal {rule : ByteRule} {c m : Char} (hm : isAscii m = true) (hc : c ≠ m)
    (hrule : ∀ b, b ≠ UInt8.ofNat m.toNat → ∀ prev bs, rule prev (b :: bs) = none) :
    SpelledPiece rule (List.replicate c.utf8Size (1, 1)) (c, [c]) := by
  refine ⟨(String.utf8EncodeChar c).map fun b => ([b], [b]), ?_, ?_, ?_, ?_, fun h => absurd rfl h⟩
  · intro p hp
    obtain ⟨b, hb, rfl⟩ := List.mem_map.mp hp
    exact .literal (hrule b (ne_of_mem_utf8EncodeChar hm hc hb))
  · simp [List.flatMap_map]
  · simp [List.flatMap_map]
  · simp [Function.comp_def, List.map_const']

theorem spelledPiece_escape {rule : ByteRule} {c : Char} {e : Str} (he : e ≠ [c]) (hne : e ≠ [])
    (hrule : ∀ prev bs, rule prev (bytes e ++ bs) = some (bytes [c], len e)) :
    SpelledPiece rule [(len e, c.utf8Size)] (c, e) := by
  have hbytes : ∀ {s : Str}, s ≠ [] → bytes s ≠ [] := fun hs h => by
    have := congrArg List.length h
    rw [length_bytes] at this
    exact hs (len_eq_zero.mp this)
  refine ⟨[(bytes [c], bytes e)], ?_, by simp, by simp, by simp,
    fun _ => ⟨(bytes [c], bytes e), List.mem_singleton.mpr rfl, fun h => he ?_⟩⟩
  · intro p hp
    obtain rfl := List.mem_singleton.mp hp
    exact .escape (hbytes hne) (hbytes (List.cons_ne_nil _ _)) fun prev bs => by
      rw [hrule, length_bytes]
  · have := fromUtf8_bytes e
    rw [← show bytes [c] = bytes e from h, fromUtf8_bytes] at this
    exact (Option.some.inj this).symm

/-- A pass over a spelled text gives the text. -/
theorem ScanView.rewriteBytes_spelled {source : Str} {view : ScanView} {rule : ByteRule}
    (hv : view.MapsTo source) {sizes : Char × Str → List (Nat × Nat)} {pieces : List (Char × Str)}
    (hp : ∀ p ∈ pieces, SpelledPiece rule (sizes p) p) (hesc : ∃ p ∈ pieces, p.2 ≠ [p.1])
    (htext : view.text = pieces.flatMap Prod.snd) :
    ∃ output, view.rewriteBytes rule = .ok output ∧ output.1 = true ∧
      output.2.map Prod.fst = bytes (pieces.map Prod.fst) ∧
      output.2.map Prod.snd = partSources view.sourceByByte (pieces.flatMap sizes) := by
  have hparts : ∃ parts : List (List UInt8 × List UInt8), (∀ p ∈ parts, SpelledPart rule p) ∧
      parts.flatMap Prod.snd = bytes (pieces.flatMap Prod.snd) ∧
      parts.flatMap Prod.fst = bytes (pieces.map Prod.fst) ∧
      parts.map (fun p => (p.2.length, p.1.length)) = pieces.flatMap sizes ∧
      ((∃ p ∈ pieces, p.2 ≠ [p.1]) → ∃ p ∈ parts, p.1 ≠ p.2) := by
    clear hesc htext
    induction pieces with
    | nil => exact ⟨[], by simp, rfl, rfl, rfl, by simp⟩
    | cons p pieces ih =>
        obtain ⟨hp, hrest⟩ := List.forall_mem_cons.mp hp
        obtain ⟨parts, hparts, hsnd, hfst, hsizes, hesc⟩ := hp
        obtain ⟨parts', hparts', hsnd', hfst', hsizes', hesc'⟩ := ih hrest
        refine ⟨parts ++ parts', ?_, ?_, ?_, ?_, ?_⟩
        · intro q hq
          rcases List.mem_append.mp hq with hq | hq
          · exact hparts q hq
          · exact hparts' q hq
        · rw [List.flatMap_append, hsnd, hsnd', List.flatMap_cons, bytes_append]
        · rw [List.flatMap_append, hfst, hfst', List.map_cons, ← bytes_append]
          rfl
        · rw [List.map_append, hsizes, hsizes', List.flatMap_cons]
        · rintro ⟨q, hq, hne⟩
          rcases List.mem_cons.mp hq with rfl | hq
          · obtain ⟨x, hx, hxe⟩ := hesc hne
            exact ⟨x, List.mem_append_left _ hx, hxe⟩
          · obtain ⟨x, hx, hxe⟩ := hesc' ⟨q, hq, hne⟩
            exact ⟨x, List.mem_append_right _ hx, hxe⟩
  obtain ⟨parts, hparts, hsnd, hfst, hsizes, hflag⟩ := hparts
  obtain ⟨output, hout, htrue, hout₁, hout₂⟩ := @rewriteFrom_spelled _ _ _ hv none 0 parts hparts
    (by rw [hsnd, length_bytes, htext]; omega)
  refine ⟨output, ?_, htrue (hflag hesc), by rw [hout₁, hfst], by rw [hout₂, hsizes]; rfl⟩
  rw [rewriteBytes, htext, ← hsnd]
  exact hout

/-! ## JSON escapes -/

theorem HexDigit.ascii {v : Nat} {c : Char} (h : HexDigit v c) :
    bytes [c] = [UInt8.ofNat c.toNat] ∧ hex (UInt8.ofNat c.toNat) = some v := by
  obtain ⟨hv, hc⟩ := h
  have hall : ∀ v < 16, ∀ c ∈ [Nat.digitChar v, (Nat.digitChar v).toUpper],
      isAscii c = true ∧ hex (UInt8.ofNat c.toNat) = some v := by
    simp only [List.forall_mem_cons, List.not_mem_nil, IsEmpty.forall_iff, implies_true, and_true]
    decide
  obtain ⟨hascii, hhex⟩ := hall v hv c (by simpa using hc)
  exact ⟨by simp [utf8EncodeChar_of_isAscii hascii], hhex⟩

theorem HexQuad.parse {n : Nat} {q : Str} (hn : n < 65536) (h : HexQuad n q) :
    (bytes q).length = 4 ∧ parseHexQuad (bytes q) = some n := by
  obtain ⟨ha, hb, hc, hd⟩ := h
  rename_i a b c d
  have hbytes : bytes [a, b, c, d] = bytes [a] ++ bytes [b] ++ bytes [c] ++ bytes [d] := by simp
  rw [hbytes, ha.ascii.1, hb.ascii.1, hc.ascii.1, hd.ascii.1]
  refine ⟨rfl, ?_⟩
  simp only [List.cons_append, List.nil_append, parseHexQuad, ha.ascii.2, hb.ascii.2, hc.ascii.2,
    hd.ascii.2, Option.bind_eq_bind, Option.bind_some, Option.some.injEq]
  omega

theorem charFromU32_toNat (c : Char) : charFromU32 c.toNat = some c := by
  have hv : c.toNat.isValidChar := c.valid
  rw [charFromU32, if_pos hv, Char.ofNat_toNat]

/-- A character is no surrogate. -/
theorem not_surrogate (c : Char) : c.toNat < 0xD800 ∨ (0xDFFF < c.toNat ∧ c.toNat < 0x110000) :=
  c.valid

theorem decodeUnicodeEscape_quad {c : Char} {q : Str} (hc : c.toNat < 0x10000)
    (hq : HexQuad c.toNat q) (bs : List UInt8) :
    decodeUnicodeEscape (bytes q ++ bs) = some ([c], 6) := by
  obtain ⟨hlen, hparse⟩ := hq.parse hc
  have := not_surrogate c
  have h₁ : ¬(0xD800 ≤ c.toNat ∧ c.toNat ≤ 0xDBFF) := by omega
  have h₂ : ¬(0xDC00 ≤ c.toNat ∧ c.toNat ≤ 0xDFFF) := by omega
  simp only [decodeUnicodeEscape, List.take_left' hlen, hparse, Option.bind_eq_bind, Option.bind_some,
    if_neg h₁, if_neg h₂, charFromU32_toNat]

theorem decodeUnicodeEscape_pair {c : Char} {high low : Nat} {q r : Str}
    (hhigh : 0xD800 ≤ high ∧ high ≤ 0xDBFF) (hlow : 0xDC00 ≤ low ∧ low ≤ 0xDFFF)
    (hc : 0x10000 + ((high - 0xD800) * 1024 + (low - 0xDC00)) = c.toNat) (hq : HexQuad high q)
    (hr : HexQuad low r) (bs : List UInt8) :
    decodeUnicodeEscape (bytes q ++ (0x5C :: 0x75 :: (bytes r ++ bs))) = some ([c], 12) := by
  obtain ⟨hlen, hparse⟩ := hq.parse (by omega)
  obtain ⟨hlen', hparse'⟩ := hr.parse (by omega)
  have hdrop : (bytes q ++ (0x5C :: 0x75 :: (bytes r ++ bs))).drop 6 = bytes r ++ bs := by
    rw [show 6 = 4 + 2 from rfl, ← List.drop_drop, List.drop_left' hlen]
    rfl
  simp only [decodeUnicodeEscape, List.take_left' hlen, hparse, Option.bind_eq_bind, Option.bind_some,
    if_pos hhigh, List.drop_left' hlen, hdrop, List.take_left' hlen', hparse', if_pos hlow, hc,
    charFromU32_toNat, List.take_succ_cons, List.take_zero, ne_eq, not_true_eq_false, ↓reduceIte]

theorem spelledPiece_json {c : Char} {e : Str} (h : JsonSpelling c e) :
    SpelledPiece jsonEscapeRule (jsonParts (c, e)) (c, e) := by
  have hsizes : ∀ {e : Str}, e ≠ [c] → jsonParts (c, e) = [(len e, c.utf8Size)] := fun he => if_neg he
  have hlen : ∀ {n q}, HexQuad n q → len q = 4 := by
    rintro n _ ⟨ha, hb, hc, hd⟩
    rename_i a b c d
    simp only [← length_bytes, bytes_cons, bytes_nil, List.length_append, List.append_nil]
    have hone : ∀ {v x}, HexDigit v x → (String.utf8EncodeChar x).length = 1 := fun h => by
      have := congrArg List.length h.ascii.1
      simpa using this
    rw [hone ha, hone hb, hone hc, hone hd]
  cases h with
  | literal hc =>
      rw [show jsonParts (c, [c]) = List.replicate c.utf8Size (1, 1) from if_pos rfl]
      refine @spelledPiece_literal _ c '\\' (by decide) hc fun b hb prev bs => ?_
      unfold jsonEscapeRule
      split
      · rename_i h
        exact absurd (List.cons.inj h).1 hb
      · rfl
  | @short x hx =>
      rw [hsizes (by simp)]
      refine spelledPiece_escape (by simp) (by simp) fun prev bs => ?_
      have hall : ∀ p ∈ shortEscapes, isAscii p.2 = true ∧
          ∀ bs, jsonEscapeRule none (0x5C :: UInt8.ofNat p.2.toNat :: bs) = some (bytes [p.1], 2) := by
        intro p hp
        simp only [shortEscapes, List.mem_cons, List.not_mem_nil, or_false] at hp
        rcases hp with rfl | rfl | rfl | rfl | rfl | rfl | rfl | rfl <;> exact ⟨rfl, fun _ => rfl⟩
      obtain ⟨hascii, hrule⟩ := hall _ hx
      have hb : bytes ['\\', x] = [0x5C, UInt8.ofNat x.toNat] := by
        simp [utf8EncodeChar_of_isAscii hascii, show String.utf8EncodeChar '\\' = [0x5C] from rfl]
      have hl : len ['\\', x] = 2 := by rw [← length_bytes, hb]; rfl
      rw [hb, hl]
      exact hrule bs
  | @unicode q hc hq =>
      rw [hsizes (by simp)]
      refine spelledPiece_escape (by simp) (by simp) fun prev bs => ?_
      have hl : len ('\\' :: 'u' :: q) = 6 := by
        rw [len_cons, len_cons, hlen hq]
        rfl
      rw [hl]
      change (decodeUnicodeEscape (bytes q ++ bs)).map _ = _
      rw [decodeUnicodeEscape_quad hc hq]
      rfl
  | @pair q r hc hq hr =>
      rw [hsizes (by simp)]
      refine spelledPiece_escape (by simp) (by simp) fun prev bs => ?_
      have hl : len ('\\' :: 'u' :: q ++ '\\' :: 'u' :: r) = 12 := by
        rw [len_append, len_cons, len_cons, len_cons, len_cons, hlen hq, hlen hr]
        rfl
      have hb : bytes ('\\' :: 'u' :: q ++ '\\' :: 'u' :: r) ++ bs
          = 0x5C :: 0x75 :: (bytes q ++ (0x5C :: 0x75 :: (bytes r ++ bs))) := by
        rw [bytes_append, List.append_assoc]
        rfl
      rw [hl, hb]
      change (decodeUnicodeEscape (bytes q ++ (0x5C :: 0x75 :: (bytes r ++ bs)))).map _ = _
      have := not_surrogate c
      rw [@decodeUnicodeEscape_pair c _ _ q r (by omega) (by omega) (by omega) hq hr]
      rfl

/-! ## Percent escapes -/

theorem percentRule_byte {b : UInt8} {e : Str} (h : PercentByte b e) :
    (bytes e).length = 3 ∧ ∀ prev bs, percentRule prev (bytes e ++ bs) = some ([b], 3) := by
  obtain ⟨hhigh, hlow⟩ := h
  rename_i high low
  have hbytes : bytes ['%', high, low] = bytes ['%'] ++ bytes [high] ++ bytes [low] := by simp
  rw [hbytes, hhigh.ascii.1, hlow.ascii.1]
  refine ⟨rfl, fun prev bs => ?_⟩
  have hb : UInt8.ofNat (b.toNat / 16 * 16 + b.toNat % 16) = b := by
    rw [show b.toNat / 16 * 16 + b.toNat % 16 = b.toNat by omega, UInt8.ofNat_toNat]
  change (do
    let high ← hex (UInt8.ofNat high.toNat)
    let low ← hex (UInt8.ofNat low.toNat)
    some ([UInt8.ofNat (high * 16 + low)], 3)) = _
  simp only [hhigh.ascii.2, hlow.ascii.2, Option.bind_eq_bind, Option.bind_some, hb]

theorem spelledPiece_percent {c : Char} {e : Str} (h : PercentSpelling c e) :
    SpelledPiece percentRule (percentParts (c, e)) (c, e) := by
  cases h with
  | literal hc =>
      rw [show percentParts (c, [c]) = List.replicate c.utf8Size (1, 1) from if_pos rfl]
      refine @spelledPiece_literal _ c '%' (by decide) hc fun b hb prev bs => ?_
      unfold percentRule
      split
      · rename_i h
        exact absurd (List.cons.inj h).1 hb
      · rfl
  | escaped h =>
      have hparts : ∀ {l : List UInt8} {t : Str}, PercentBytes l t →
          ∃ parts : List (List UInt8 × List UInt8), (∀ p ∈ parts, SpelledPart percentRule p) ∧
            (∀ p ∈ parts, p.1 ≠ p.2) ∧ parts.flatMap Prod.snd = bytes t ∧
            parts.flatMap Prod.fst = l ∧ (bytes t).length = 3 * l.length ∧
            parts.map (fun p => (p.2.length, p.1.length)) = List.replicate l.length (3, 1) := by
        intro l t h
        induction h with
        | nil => exact ⟨[], by simp, by simp, rfl, rfl, rfl, rfl⟩
        | @cons b bs e t hb _ ih =>
            obtain ⟨parts, hparts, hne, hsnd, hfst, htriple, hsizes⟩ := ih
            obtain ⟨hlen, hrule⟩ := percentRule_byte hb
            refine ⟨([b], bytes e) :: parts, List.forall_mem_cons.mpr ⟨?_, hparts⟩,
              List.forall_mem_cons.mpr ⟨?_, hne⟩, ?_, ?_, ?_, ?_⟩
            · refine .escape ?_ (List.cons_ne_nil _ _) fun prev bs => by rw [hrule, hlen]
              exact List.ne_nil_of_length_pos (by omega)
            · intro h
              have := congrArg List.length (show [b] = bytes e from h)
              rw [hlen] at this
              cases this
            · rw [List.flatMap_cons, hsnd, bytes_append]
            · rw [List.flatMap_cons, hfst]
              rfl
            · rw [bytes_append, List.length_append, hlen, htriple, List.length_cons]
              omega
            · rw [List.map_cons, hsizes, hlen]
              rfl
      obtain ⟨parts, hparts, hne, hsnd, hfst, htriple, hsizes⟩ := hparts h
      have hpos : parts ≠ [] := by
        rintro rfl
        have := String.length_utf8EncodeChar c
        have := c.utf8Size_pos
        rw [← hfst] at *
        simp at *
        omega
      have hne' : e ≠ [c] := by
        intro h
        have := c.utf8Size_pos
        rw [h, length_bytes, String.length_utf8EncodeChar, len_cons, len_nil] at htriple
        omega
      rw [show percentParts (c, e) = List.replicate c.utf8Size (3, 1) from if_neg hne']
      refine ⟨parts, hparts, hsnd, by simpa using hfst, ?_, fun _ => ?_⟩
      · rw [hsizes, String.length_utf8EncodeChar]
      · obtain ⟨p, parts, rfl⟩ := List.exists_cons_of_ne_nil hpos
        exact ⟨p, List.mem_cons_self, hne p List.mem_cons_self⟩

/-! ## The decoders -/

/-- Each decoder gives back every text that is spelled for it with at least one escape, and maps every
decoded byte to the sources of its escape. -/
theorem decoders_invert {source : Str} {view : ScanView} (hv : view.MapsTo source)
    {pieces : List (Char × Str)} (htext : view.text = pieces.flatMap Prod.snd)
    (hesc : ∃ p ∈ pieces, p.2 ≠ [p.1]) :
    ((∀ p ∈ pieces, JsonSpelling p.1 p.2) → view.decodeJsonEscapes = .ok (some
      ⟨pieces.map Prod.fst, partSources view.sourceByByte (pieces.flatMap jsonParts)⟩)) ∧
    ((∀ p ∈ pieces, PercentSpelling p.1 p.2) → view.decodePercentEncoding = .ok (some
      ⟨pieces.map Prod.fst, partSources view.sourceByByte (pieces.flatMap percentParts)⟩)) := by
  constructor
  · intro hp
    obtain ⟨output, hout, hflag, hfst, hsnd⟩ :=
      ScanView.rewriteBytes_spelled hv (fun p hm => spelledPiece_json (hp p hm)) hesc htext
    have hfrom := (ScanView.fromBytes_pairs hfst).trans (by rw [hsnd])
    simp only [ScanView.decodeJsonEscapes, hout, ok_bind, hflag, Bool.true_eq_false, ↓reduceIte, hfrom]
    rfl
  · intro hp
    obtain ⟨output, hout, hflag, hfst, hsnd⟩ :=
      ScanView.rewriteBytes_spelled hv (fun p hm => spelledPiece_percent (hp p hm)) hesc htext
    have hfrom := (ScanView.fromBytes_pairs hfst).trans (by rw [hsnd])
    have htext : (fromUtf8 (output.2.map Prod.fst)).isNone = false := by
      rw [hfst, fromUtf8_bytes]
      rfl
    simp only [ScanView.decodePercentEncoding, hout, ok_bind, hflag, Bool.true_eq_false, ↓reduceIte,
      htext, Bool.false_eq_true, hfrom]
    rfl

/-- A literal and a surrogate pair in JSON. -/
theorem decoders_invert_demo :
    (distinctView "a\\uD83D\\uDE00".toList).decodeJsonEscapes = .ok (some
      ⟨['a', '😀'], ⟨0, 1⟩ :: List.replicate 4 ⟨1, 13⟩⟩) := by
  have hpieces : ∀ p ∈ [('a', ['a']), ('😀', "\\uD83D\\uDE00".toList)], JsonSpelling p.1 p.2 := by
    refine List.forall_mem_cons.mpr ⟨.literal (by decide), List.forall_mem_singleton.mpr ?_⟩
    refine @JsonSpelling.pair '😀' "D83D".toList "DE00".toList (by decide) ⟨?_, ?_, ?_, ?_⟩
      ⟨?_, ?_, ?_, ?_⟩ <;> unfold HexDigit <;> decide
  have hesc : ∃ p ∈ [('a', ['a']), ('😀', "\\uD83D\\uDE00".toList)], p.2 ≠ [p.1] :=
    ⟨_, List.mem_cons_of_mem _ List.mem_cons_self, by decide⟩
  have hinvert := decoders_invert (mapsTo_distinctView "a\\uD83D\\uDE00".toList) rfl hesc
  exact (hinvert.1 hpieces).trans (by decide)

end AgentVeil
