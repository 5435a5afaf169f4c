import AgentVeil.Sse.Lemmas.Framing
import AgentVeil.Sse.Lemmas.Lines

/-!
# A restored frame is a frame

The written event has no line end, so it joins no bytes around it to an empty line. The end of the
frame stays the only one, and the other lines stay the lines they were.
-/

namespace AgentVeil

open Rust

/-- The bytes hold no line feed and do not end in a carriage return. -/
structure Inline (x : List UInt8) : Prop where
  feed : 0x0A ∉ x
  last : x.getLast? ≠ some 0x0D

theorem Inline.tail {b : UInt8} {x : List UInt8} (h : Inline (b :: x)) (hx : x ≠ []) : Inline x := by
  refine ⟨fun hmem => h.feed (List.mem_cons_of_mem _ hmem), fun hlast => h.last ?_⟩
  obtain ⟨c, x, rfl⟩ := List.exists_cons_of_ne_nil hx
  rwa [List.getLast?_cons_cons]

/-- A carriage return in the bytes is followed by another byte than a line feed. -/
theorem Inline.no_crlf {x s : List UInt8} (h : Inline (0x0D :: x)) : ∀ r, x ++ s ≠ 0x0A :: r := by
  intro r heq
  cases x with
  | nil => exact h.last rfl
  | cons c x =>
      obtain ⟨rfl, _⟩ := List.cons.inj heq
      exact h.feed (by simp)

theorem findFrameEnd_inline {x s : List UInt8} (h : Inline x) :
    findFrameEnd (x ++ s) = (findFrameEnd s).map (· + x.length) := by
  induction x with
  | nil => simp
  | cons b x ih =>
      have hfeed : b ≠ 0x0A := fun heq => h.feed (by simp [heq])
      have h2 : ¬[0x0A, 0x0A].isPrefixOf (b :: (x ++ s)) = true := by
        intro hp
        obtain ⟨r, hr⟩ := List.isPrefixOf_iff_prefix.mp hp
        exact hfeed (List.cons.inj hr).1.symm
      have h4 : ¬[0x0D, 0x0A, 0x0D, 0x0A].isPrefixOf (b :: (x ++ s)) = true := by
        intro hp
        obtain ⟨r, hr⟩ := List.isPrefixOf_iff_prefix.mp hp
        obtain ⟨rfl, hrest⟩ := List.cons.inj hr
        exact h.no_crlf _ hrest.symm
      rw [List.cons_append, findFrameEnd, if_neg h2, if_neg h4]
      by_cases hx : x = []
      · subst hx
        rfl
      · rw [ih (h.tail hx), Option.map_map, List.length_cons]
        rfl

/-- No empty line is made of bytes on both sides of the line. -/
theorem findFrameEnd_around {p x s : List UInt8} (hp : findFrameEnd p = none) (hx : Inline x)
    (hne : x ≠ []) :
    findFrameEnd (p ++ (x ++ s)) = (findFrameEnd s).map (· + (p ++ x).length) := by
  induction p with
  | nil => simpa using findFrameEnd_inline hx
  | cons b p ih =>
      simp only [findFrameEnd] at hp
      split at hp
      · cases hp
      rename_i h2
      split at hp
      · cases hp
      rename_i h4
      have hrest : findFrameEnd p = none := by
        cases hf : findFrameEnd p with
        | none => rfl
        | some n => rw [hf] at hp; cases hp
      obtain ⟨c, x, rfl⟩ := List.exists_cons_of_ne_nil hne
      have hfeed : c ≠ 0x0A := fun heq => hx.feed (by simp [heq])
      have h2' : ¬[0x0A, 0x0A].isPrefixOf (b :: (p ++ (c :: x ++ s))) = true := by
        intro hpre
        obtain ⟨r, hr⟩ := List.isPrefixOf_iff_prefix.mp hpre
        cases p with
        | nil =>
            simp only [List.cons_append, List.nil_append, List.cons.injEq] at hr
            exact hfeed hr.2.1.symm
        | cons d p =>
            simp only [List.cons_append, List.nil_append, List.cons.injEq] at hr
            obtain ⟨rfl, rfl, _⟩ := hr
            exact h2 rfl
      have h4' : ¬[0x0D, 0x0A, 0x0D, 0x0A].isPrefixOf (b :: (p ++ (c :: x ++ s))) = true := by
        intro hpre
        obtain ⟨r, hr⟩ := List.isPrefixOf_iff_prefix.mp hpre
        rcases p with _ | ⟨d, _ | ⟨e, _ | ⟨f, p⟩⟩⟩
        · simp only [List.cons_append, List.nil_append, List.cons.injEq] at hr
          exact hfeed hr.2.1.symm
        · simp only [List.cons_append, List.nil_append, List.cons.injEq] at hr
          obtain ⟨_, _, rfl, hr⟩ := hr
          exact hx.no_crlf _ hr.symm
        · simp only [List.cons_append, List.nil_append, List.cons.injEq] at hr
          exact hfeed hr.2.2.2.1.symm
        · simp only [List.cons_append, List.nil_append, List.cons.injEq] at hr
          obtain ⟨rfl, rfl, rfl, rfl, _⟩ := hr
          exact h4 rfl
      rw [List.cons_append, findFrameEnd, if_neg h2', if_neg h4', ih hrest, Option.map_map,
        List.cons_append, List.length_cons]
      rfl

/-- Another line in the place of one leaves the frame a frame. -/
theorem findFrameEnd_replace {p x x' s : List UInt8}
    (h : findFrameEnd (p ++ (x ++ s)) = some (p ++ (x ++ s)).length) (hx : Inline x) (hne : x ≠ [])
    (hx' : Inline x') (hne' : x' ≠ []) :
    findFrameEnd (p ++ (x' ++ s)) = some (p ++ (x' ++ s)).length := by
  have hp : findFrameEnd p = none := by
    cases hf : findFrameEnd p with
    | none => rfl
    | some n =>
        have hlong := findFrameEnd_append hf (x ++ s)
        rw [h] at hlong
        have hle := (findFrameEnd_bounds hf).2
        have hpos := List.length_pos_iff.mpr hne
        simp only [Option.some.injEq, List.length_append] at hlong
        omega
  rw [findFrameEnd_around hp hx hne] at h
  obtain ⟨n, hn, hlen⟩ := Option.map_eq_some_iff.mp h
  rw [findFrameEnd_around hp hx' hne', hn, Option.map_some]
  simp only [List.length_append] at hlen ⊢
  rw [Option.some.injEq]
  omega

/-! ## Text and bytes of a line -/

theorem inline_bytes {s : Str} (hfeed : '\n' ∉ s) (hlast : s.getLast? ≠ some '\r') :
    Inline (bytes s) := by
  refine ⟨fun h => hfeed (feed_mem_bytes h), fun h => hlast ?_⟩
  obtain ⟨p, hp⟩ := List.getLast?_eq_some_iff.mp h
  obtain ⟨a, c, b, rfl, _, hc, hbyte, hb⟩ := bytes_split_ascii (by decide) hp
  have hn : c.toNat = 13 := by
    have := congrArg UInt8.toNat hbyte
    have hle : c.toNat ≤ 127 := by simpa [isAscii] using hc
    rw [UInt8.toNat_ofNat', Nat.mod_eq_of_lt (by omega)] at this
    exact this.symm
  have hb : b = [] := len_eq_zero.mp (by rw [← length_bytes, hb]; rfl)
  rw [hb, List.getLast?_append, show c = '\r' from Char.toNat_inj.mp hn]
  rfl

/-! ## The lines of a restored frame -/

theorem IsLines.content_feed {lines : List Str} (h : IsLines lines) :
    ∀ l ∈ lines, '\n' ∉ content l := by
  induction h with
  | nil => simp
  | @last line _ hn =>
      intro l hl hmem
      rw [List.mem_singleton.mp hl] at hmem
      exact hn ((content_append_lineEnding line).1 ▸ List.mem_append_left _ hmem)
  | @cons body lines hb _ ih =>
      refine List.forall_mem_cons.mpr ⟨fun hmem => ?_, ih⟩
      obtain ⟨hline, _, hlast⟩ := content_append_lineEnding (body ++ ['\n'])
      rcases List.eq_nil_or_concat (lineEnding (body ++ ['\n'])) with hnil | ⟨e, c, he⟩
      · rw [hnil, List.append_nil] at hline
        have := hlast '\n' (by rw [← hline]; simp)
        cases this
      · rw [he, List.concat_eq_append, ← List.append_assoc] at hline
        obtain ⟨hbody, _⟩ := List.append_inj' hline rfl
        exact hb (by rw [hbody]; exact List.mem_append_left _ hmem)

theorem not_control {s : Str} (h : ∀ x ∈ bytes s, 0x20 ≤ x) : ∀ c ∈ s, isLineEnd c = false := by
  intro c hc
  cases hend : isLineEnd c with
  | false => rfl
  | true =>
      simp only [isLineEnd, Bool.or_eq_true, decide_eq_true_eq] at hend
      obtain ⟨a, b, rfl⟩ := List.append_of_mem hc
      rcases hend with rfl | rfl
      · exact absurd (h 0x0D (by simp [bytes, String.utf8EncodeChar])) (by decide)
      · exact absurd (h 0x0A (by simp [bytes, String.utf8EncodeChar])) (by decide)

theorem first_brace {s : Str} (h : (bytes s).head? = some 0x7B) : ∃ t, s = '\x7b' :: t := by
  cases s with
  | nil => cases h
  | cons c s =>
      have hb : bytes (c :: s) = [] ++ 0x7B :: (bytes (c :: s)).tail := by
        cases hbytes : bytes (c :: s) with
        | nil => rw [hbytes] at h; cases h
        | cons b bs => rw [hbytes] at h; cases h; rfl
      obtain ⟨a, d, t, hs, ha, hd, hbyte, _⟩ := bytes_split_ascii (by decide) hb
      have ha : a = [] := len_eq_zero.mp (by rw [← length_bytes, ha]; rfl)
      have hn : d.toNat = 123 := by
        have := congrArg UInt8.toNat hbyte
        have hle : d.toNat ≤ 127 := by simpa [isAscii] using hd
        rw [UInt8.toNat_ofNat', Nat.mod_eq_of_lt (by omega)] at this
        exact this.symm
      refine ⟨t, ?_⟩
      rw [hs, ha, show d = '\x7b' from Char.toNat_inj.mp hn]
      rfl

def dataLines (text : Str) : List Str := (splitInclusive text).filter isDataLine

def otherLines (text : Str) : List Str := (splitInclusive text).filter fun l => !isDataLine l

/-- The event type in a data line. -/
def lineType (json : SerdeJson) (line : Str) : Option Str :=
  (json.fromStr (bytes (payload line))).bind getType

/-- Two frames with the same other lines, and at most one data line each, of the same event type. -/
def SameLines (json : SerdeJson) (frame out : List UInt8) : Prop :=
  ∃ text text', bytes text = frame ∧ bytes text' = out ∧ otherLines text' = otherLines text ∧
    (dataLines text').map (lineType json) = (dataLines text).map (lineType json) ∧
    (dataLines text).length ≤ 1

theorem filter_lines {before after : List Str} {line : Str} (hline : isDataLine line = true)
    (hrest : ∀ l ∈ before ++ after, isDataLine l = false) :
    (before ++ line :: after).filter isDataLine = [line] ∧
      (before ++ line :: after).filter (fun l => !isDataLine l) = before ++ after := by
  have hb : ∀ l ∈ before, isDataLine l = false := fun l hl => hrest l (List.mem_append_left _ hl)
  have ha : ∀ l ∈ after, isDataLine l = false := fun l hl => hrest l (List.mem_append_right _ hl)
  constructor
  · rw [List.filter_append, List.filter_cons, if_pos hline,
      List.filter_eq_nil_iff.mpr (fun l hl => by simp [hb l hl]),
      List.filter_eq_nil_iff.mpr (fun l hl => by simp [ha l hl])]
    rfl
  · rw [List.filter_append, List.filter_cons, if_neg (by simp [hline]),
      List.filter_eq_self.mpr (fun l hl => by simp [hb l hl]),
      List.filter_eq_self.mpr (fun l hl => by simp [ha l hl])]

/-- No display leaf is the event type. -/
theorem displayLeaves_ne_type {eventType : Str} {event : Value} {l : Path × Str}
    (h : l ∈ displayLeaves eventType event) : l.1 ≠ [.key "type".toList] := by
  have htext : ∀ {name : String}, name.toList ≠ "type".toList → l ∈ textLeaf name event →
      l.1 ≠ [.key "type".toList] := by
    intro name hname hl
    unfold textLeaf at hl
    split at hl
    · rw [List.mem_singleton.mp hl]
      simpa using hname
    · cases hl
  have hat : ∀ {name : String} {g : Value → List (Path × Str)}, name.toList ≠ "type".toList →
      l ∈ leavesAt g name event → l.1 ≠ [.key "type".toList] := by
    intro name g hname hl
    unfold leavesAt at hl
    split at hl
    · obtain ⟨q, _, rfl⟩ := List.mem_map.mp hl
      intro heq
      exact hname (PathSegment.key.inj (List.cons.inj heq).1)
    · cases hl
  unfold displayLeaves at h
  split at h
  · exact htext (by decide) h
  split at h
  · exact htext (by decide) h
  split at h
  · exact hat (by decide) h
  split at h
  · exact hat (by decide) h
  split at h
  · exact hat (by decide) h
  · cases h

theorem getType_replaceLeaves {updates : List (Path × Str)}
    (h : ∀ u ∈ updates, u.1 ≠ [.key "type".toList]) (v : Value) :
    getType (replaceLeaves updates v) = getType v := by
  have hlookup : updates.lookup [.key "type".toList] = none := by
    rw [List.lookup_eq_none_iff]
    intro u hu
    rw [bne_iff_ne]
    exact (h u hu).symm
  unfold getType replaceLeaves
  rw [Value.child?_mapStrings]
  cases v.child? (.key "type".toList) with
  | none => rfl
  | some c =>
      cases c with
      | string s =>
          change (some ((updates.lookup [.key "type".toList]).getD s) : Option Str) = some s
          rw [hlookup]
          rfl
      | _ => rfl

@[simp] theorem getType_reparse (json : SerdeJson) (v : Value) :
    getType (json.reparse v) = getType v := by
  unfold getType SerdeJson.reparse
  rw [Value.child?_mapFloats]
  cases v.child? (.key "type".toList) with
  | none => rfl
  | some c =>
      cases c with
      | _ => rfl

/-- The line that is written for an event. -/
theorem written_line {t ending : Str} (hplain : ∀ c ∈ '\x7b' :: t, isLineEnd c = false)
    (hend : ∀ c ∈ ending, isLineEnd c = true) :
    Inline (bytes ("data: ".toList ++ '\x7b' :: t)) ∧ '\n' ∉ "data: ".toList ++ '\x7b' :: t ∧
      isDataLine (("data: ".toList ++ '\x7b' :: t) ++ ending) = true ∧
      payload (("data: ".toList ++ '\x7b' :: t) ++ ending) = '\x7b' :: t := by
  have hlast : ∀ c ∈ ("data: ".toList ++ '\x7b' :: t).getLast?, isLineEnd c = false := by
    intro c hc
    rw [List.getLast?_append_of_ne_nil _ (by simp)] at hc
    exact hplain c (List.mem_of_getLast? hc)
  have hfeed : '\n' ∉ "data: ".toList ++ '\x7b' :: t := by
    intro hmem
    rcases List.mem_append.mp hmem with hmem | hmem
    · exact absurd hmem (by decide)
    · exact absurd (hplain _ hmem) (by decide)
  have hcontent : content (("data: ".toList ++ '\x7b' :: t) ++ ending)
      = "data: ".toList ++ '\x7b' :: t := trimEndMatches_eq hend hlast
  refine ⟨inline_bytes hfeed fun hr => ?_, hfeed, ?_, ?_⟩
  · exact absurd (hlast '\r' hr) (by decide)
  · rw [isDataLine, hcontent]
    rfl
  · rw [payload, hcontent]
    rfl

section Restored

variable {σ : Type} {json : SerdeJson} {mode : SseRestorationMode} {restore : Str → StateM σ Str}

/-- A transformed frame is one frame, with the lines of the input. -/
theorem Transformed.framed (hjson : json.Compact) {text : Str} {out : List UInt8} {st st' : σ}
    (h : Transformed json mode restore text st out st')
    (hframe : findFrameEnd (bytes text) = some (bytes text).length) :
    findFrameEnd out = some out.length ∧ SameLines json (bytes text) out := by
  have hsame : (dataLines text).length ≤ 1 → SameLines json (bytes text) (bytes text) := fun hone =>
    ⟨text, text, rfl, rfl, rfl, rfl, hone⟩
  obtain ⟨hlines, hflat⟩ := isLines_splitInclusive text
  cases h with
  | noData hnone =>
      refine ⟨hframe, hsame ?_⟩
      rw [dataLines, List.filter_eq_nil_iff.mpr (fun l hl => by simp [hnone l hl])]
      exact Nat.zero_le _
  | done hsplit hdata hrest _ =>
      refine ⟨hframe, hsame ?_⟩
      rw [dataLines, hsplit, (filter_lines hdata hrest).1]
      exact Nat.le_refl _
  | passed hsplit hdata hrest _ _ _ =>
      refine ⟨hframe, hsame ?_⟩
      rw [dataLines, hsplit, (filter_lines hdata hrest).1]
      exact Nat.le_refl _
  | @restored before line after event eventType event' serialized _ hsplit hdata hrest hevent htype _
      hrestores hserialized hparse =>
      obtain ⟨written, rfl⟩ := hjson.text _ _ hserialized
      obtain ⟨_, hvalue⟩ := hrestores
      -- the event is an object and keeps its type
      have htype' : getType event' = some eventType := by
        rw [hvalue, getType_replaceLeaves, htype]
        intro u hu
        obtain ⟨l, hl, hpath⟩ := List.mem_map.mp (List.of_mem_zip hu).1
        rw [← hpath]
        exact displayLeaves_ne_type hl
      obtain ⟨o, rfl⟩ : ∃ o, event' = .object o := by
        cases event' with
        | object o => exact ⟨o, rfl⟩
        | _ => cases htype'
      obtain ⟨t, rfl⟩ := first_brace (hjson.object _ _ hserialized)
      obtain ⟨hline, hend, hlast⟩ := content_append_lineEnding line
      obtain ⟨hinline, hfeed, hdata', hpayload⟩ :=
        written_line (not_control (hjson.control _ _ hserialized)) hend
      have hne : content line ≠ [] := by
        intro hnil
        rw [isDataLine, hnil] at hdata
        cases hdata
      have hold : Inline (bytes (content line)) :=
        inline_bytes (hlines.content_feed line (by rw [hsplit]; simp)) fun hr =>
          absurd (hlast '\r' hr) (by decide)
      have htext : bytes text = bytes before.flatten ++
          (bytes (content line) ++ (bytes (lineEnding line) ++ bytes after.flatten)) := by
        have hsplitText : text
            = before.flatten ++ (content line ++ (lineEnding line ++ after.flatten)) := by
          rw [← List.append_assoc (content line), ← hline, ← hflat, hsplit]
          simp
        rw [← bytes_append, ← bytes_append, ← bytes_append, ← hsplitText]
      have hbytes : ∀ {s : Str}, s ≠ [] → bytes s ≠ [] := fun hs hnil =>
        hs (len_eq_zero.mp (by rw [← length_bytes, hnil]; rfl))
      rw [htext] at hframe
      have hout := findFrameEnd_replace hframe hold (hbytes hne) hinline (hbytes (by simp))
      have hbytesOut : bytes before.flatten ++ (bytes "data: ".toList ++ bytes ('\x7b' :: t)
          ++ bytes (lineEnding line)) ++ bytes after.flatten = bytes before.flatten ++
            (bytes ("data: ".toList ++ '\x7b' :: t) ++ (bytes (lineEnding line)
              ++ bytes after.flatten)) := by
        rw [bytes_append]
        simp only [List.append_assoc]
      rw [hbytesOut]
      refine ⟨hout, text, (before ++ (("data: ".toList ++ '\x7b' :: t) ++ lineEnding line)
        :: after).flatten, rfl, ?_, ?_⟩
      · simp
      · have hlines' : IsLines (before ++ (("data: ".toList ++ '\x7b' :: t) ++ lineEnding line)
            :: after) := by
          rw [hsplit, hline] at hlines
          exact hlines.replace (by
            have := (isLines_splitInclusive text).1.content_feed line (by rw [hsplit]; simp)
            exact this) hfeed (by simp)
        obtain ⟨hnew, hnewOther⟩ := filter_lines hdata' hrest
        obtain ⟨hfil, hother⟩ := filter_lines hdata hrest
        rw [otherLines, otherLines, dataLines, dataLines, splitInclusive_flatten hlines', hsplit, hnew,
          hnewOther, hfil, hother]
        refine ⟨rfl, ?_, Nat.le_refl _⟩
        simp only [List.map_cons, List.map_nil, lineType, hpayload, hparse, hevent, Option.bind_some,
          getType_reparse, htype, htype']

end Restored

end AgentVeil
