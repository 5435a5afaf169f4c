import AgentVeil.Sse.Lemmas.Leaves
import Mathlib.Data.List.TakeWhile

/-!
# Lines of a frame

What a transformed frame is, line by line.
-/

namespace AgentVeil

open Rust

/-! ## Trimming -/

theorem trimEndMatches_append (p : Char → Bool) (s : Str) : ∃ e, s = trimEndMatches p s ++ e ∧
    (∀ c ∈ e, p c = true) ∧ ∀ c ∈ (trimEndMatches p s).getLast?, p c = false := by
  refine ⟨(s.reverse.takeWhile p).reverse, ?_, fun c hc => ?_, fun c hc => ?_⟩
  · rw [trimEndMatches, ← List.reverse_append, List.takeWhile_append_dropWhile, List.reverse_reverse]
  · exact List.mem_takeWhile_imp (List.mem_reverse.mp hc)
  · rw [trimEndMatches, List.getLast?_reverse] at hc
    have := List.head?_dropWhile_not p s.reverse
    rw [Option.mem_def.mp hc] at this
    simpa using this

theorem trimEndMatches_eq {p : Char → Bool} {s e : Str} (he : ∀ c ∈ e, p c = true)
    (hs : ∀ c ∈ s.getLast?, p c = false) : trimEndMatches p (s ++ e) = s := by
  rw [trimEndMatches, List.reverse_append, List.dropWhile_append_of_pos
    (fun c hc => he c (List.mem_reverse.mp hc))]
  have hstop : s.reverse.dropWhile p = s.reverse := by
    cases hr : s.reverse with
    | nil => rfl
    | cons c r =>
        have hc : p c = false := hs c (by
          rw [← List.head?_reverse, hr]
          rfl)
        rw [List.dropWhile_cons, hc]
        rfl
  rw [hstop, List.reverse_reverse]

/-! ## Lines -/

/-- The lines of a text: each but perhaps the last ends with its only line feed. -/
inductive IsLines : List Str → Prop where
  | nil : IsLines []
  | last {line} : line ≠ [] → '\n' ∉ line → IsLines [line]
  | cons {body lines} : '\n' ∉ body → IsLines lines → IsLines ((body ++ ['\n']) :: lines)

theorem splitInclusive_line {body s : Str} (h : '\n' ∉ body) :
    splitInclusive (body ++ '\n' :: s) = (body ++ ['\n']) :: splitInclusive s := by
  induction body with
  | nil => simp [splitInclusive]
  | cons c body ih =>
      simp only [List.mem_cons, not_or] at h
      rw [List.cons_append, splitInclusive, if_neg (Ne.symm h.1), ih h.2]
      rfl

theorem splitInclusive_last {line : Str} (hne : line ≠ []) (h : '\n' ∉ line) :
    splitInclusive line = [line] := by
  induction line with
  | nil => exact absurd rfl hne
  | cons c line ih =>
      simp only [List.mem_cons, not_or] at h
      rw [splitInclusive, if_neg (Ne.symm h.1)]
      cases line with
      | nil => rfl
      | cons d line => rw [ih (by simp) h.2]

theorem splitInclusive_flatten {lines : List Str} (h : IsLines lines) :
    splitInclusive lines.flatten = lines := by
  induction h with
  | nil => rfl
  | last hne h => simpa using splitInclusive_last hne h
  | cons hb _ ih =>
      rw [List.flatten_cons, List.append_assoc, List.singleton_append, splitInclusive_line hb, ih]

theorem isLines_splitInclusive (s : Str) :
    IsLines (splitInclusive s) ∧ (splitInclusive s).flatten = s := by
  induction hn : s.length using Nat.strong_induction_on generalizing s with
  | _ n ih =>
      by_cases h : '\n' ∈ s
      · obtain ⟨body, rest, rfl, hb⟩ := List.eq_append_cons_of_mem h
        obtain ⟨hlines, hflat⟩ := ih rest.length (by simp at hn; omega) rest rfl
        rw [splitInclusive_line hb]
        exact ⟨.cons hb hlines, by simp [hflat]⟩
      · cases s with
        | nil => exact ⟨.nil, rfl⟩
        | cons c s =>
            rw [splitInclusive_last (by simp) h]
            exact ⟨.last (by simp) h, by simp⟩

/-- A line with other content and the same ending is still a line. -/
theorem IsLines.replace {before after : List Str} {content content' ending : Str}
    (h : IsLines (before ++ (content ++ ending) :: after)) (hc : '\n' ∉ content)
    (hc' : '\n' ∉ content') (hne : content' ≠ []) :
    IsLines (before ++ (content' ++ ending) :: after) := by
  induction before with
  | nil =>
      rw [List.nil_append] at h ⊢
      generalize hline : content ++ ending = line at h
      cases h with
      | last hl hn =>
          rw [← hline, List.mem_append, not_or] at hn
          exact .last (by simp [hne]) (by simp [hc', hn.2])
      | @cons body _ hb hrest =>
          rcases List.eq_nil_or_concat ending with rfl | ⟨e, c, rfl⟩
          · rw [List.append_nil] at hline
            exact absurd (by simp [hline]) hc
          · rw [List.concat_eq_append, ← List.append_assoc] at hline ⊢
            obtain ⟨rfl, hlast⟩ := List.append_inj' hline rfl
            obtain rfl := List.singleton_inj.mp hlast
            rw [List.mem_append, not_or] at hb
            exact .cons (by simp [hc', hb.2]) hrest
  | cons line before ih =>
      rw [List.cons_append] at h ⊢
      generalize hrest : before ++ (content ++ ending) :: after = rest at h
      cases h with
      | last => simp at hrest
      | cons hb hlines =>
          subst hrest
          exact .cons hb (ih hlines)

/-! ## Data lines -/

/-- The line without its ending. -/
def content (line : Str) : Str := trimEndMatches isLineEnd line

def lineEnding (line : Str) : Str := line.drop (content line).length

def isDataLine (line : Str) : Bool := "data:".toList.isPrefixOf (content line)

/-- The data of a data line. -/
def payload (line : Str) : Str := trimStart ((content line).drop "data:".toList.length)

theorem content_append_lineEnding (line : Str) : line = content line ++ lineEnding line ∧
    (∀ c ∈ lineEnding line, isLineEnd c = true) ∧
    ∀ c ∈ (content line).getLast?, isLineEnd c = false := by
  obtain ⟨e, he, hend, hlast⟩ := trimEndMatches_append isLineEnd line
  have hdrop : lineEnding line = e := by
    have hcut : line.drop (content line).length = (content line ++ e).drop (content line).length :=
      congrArg (List.drop (content line).length) he
    rw [lineEnding, hcut, List.drop_left]
  rw [hdrop]
  exact ⟨he, hend, hlast⟩

theorem scanLines_some {lines : List Str} {offset : Nat} {header header' : Option Str}
    {d : DataLine} {found : Option DataLine}
    (h : scanLines lines offset header (some d) = .ok (header', found)) :
    found = some d ∧ ∀ l ∈ lines, isDataLine l = false := by
  induction lines generalizing offset header with
  | nil =>
      cases h
      exact ⟨rfl, by simp⟩
  | cons line lines ih =>
      simp only [scanLines, Option.isSome_some, ↓reduceIte] at h
      split at h
      · cases h
      · rename_i hdata
        obtain ⟨hfound, hrest⟩ := ih h
        exact ⟨hfound, List.forall_mem_cons.mpr ⟨Bool.not_eq_true _ ▸ hdata, hrest⟩⟩

/-- The loop finds the only data line, or there is none. -/
theorem scanLines_none {lines : List Str} {offset : Nat} {header header' : Option Str}
    {found : Option DataLine} (h : scanLines lines offset header none = .ok (header', found)) :
    (found = none ∧ ∀ l ∈ lines, isDataLine l = false) ∨
      ∃ before line after, lines = before ++ line :: after ∧ isDataLine line = true ∧
        (∀ l ∈ before ++ after, isDataLine l = false) ∧
        found = some ⟨offset + len before.flatten, offset + len before.flatten + len line, line⟩ := by
  induction lines generalizing offset header with
  | nil =>
      cases h
      exact .inl ⟨rfl, by simp⟩
  | cons line lines ih =>
      simp only [scanLines, Option.isSome_none, Bool.false_eq_true, ↓reduceIte] at h
      split at h
      · rename_i hdata
        obtain ⟨rfl, hrest⟩ := scanLines_some h
        exact .inr ⟨[], line, lines, rfl, hdata, by simpa using hrest, by simp⟩
      · rename_i hdata
        have hline : isDataLine line = false := Bool.not_eq_true _ ▸ hdata
        rcases ih h with ⟨hfound, hrest⟩ | ⟨before, data, after, rfl, hd, hrest, rfl⟩
        · exact .inl ⟨hfound, List.forall_mem_cons.mpr ⟨hline, hrest⟩⟩
        · refine .inr ⟨line :: before, data, after, rfl, hd, ?_, ?_⟩
          · rw [List.cons_append]
            exact List.forall_mem_cons.mpr ⟨hline, hrest⟩
          · simp [Nat.add_assoc]

/-! ## Transformed frames -/

section Transformed

variable {σ : Type}

/-- What becomes of the text of a frame. -/
inductive Transformed (json : SerdeJson) (mode : SseRestorationMode) (restore : Str → StateM σ Str)
    (text : Str) (st : σ) : List UInt8 → σ → Prop where
  | noData : (∀ l ∈ splitInclusive text, isDataLine l = false) →
      Transformed json mode restore text st (bytes text) st
  | done {before line after} : splitInclusive text = before ++ line :: after →
      isDataLine line = true → (∀ l ∈ before ++ after, isDataLine l = false) →
      payload line = "[DONE]".toList → Transformed json mode restore text st (bytes text) st
  | passed {before line after event eventType} : splitInclusive text = before ++ line :: after →
      isDataLine line = true → (∀ l ∈ before ++ after, isDataLine l = false) →
      json.fromStr (bytes (payload line)) = some event → getType event = some eventType →
      isRestorableEvent mode eventType = false → Transformed json mode restore text st (bytes text) st
  | restored {before line after event eventType event' serialized st'} :
      splitInclusive text = before ++ line :: after →
      isDataLine line = true → (∀ l ∈ before ++ after, isDataLine l = false) →
      json.fromStr (bytes (payload line)) = some event → getType event = some eventType →
      isRestorableEvent mode eventType = true →
      Restores restore (displayLeaves eventType event) event st event' st' →
      json.toVec event' = some serialized → json.fromStr serialized = some (json.reparse event') →
      Transformed json mode restore text st (bytes before.flatten ++
        (bytes "data: ".toList ++ serialized ++ bytes (lineEnding line)) ++ bytes after.flatten) st'

theorem canonical_replaceLeaves {v : Value} (hv : v.Canonical) (updates : List (Path × Str)) :
    (replaceLeaves updates v).Canonical := hv.mapStrings

theorem take_bytes_append (a b : Str) : (bytes (a ++ b)).take (len a) = bytes a := by
  rw [bytes_append, ← length_bytes, List.take_left]

theorem drop_bytes_append (a b : Str) : (bytes (a ++ b)).drop (len a) = bytes b := by
  rw [bytes_append, ← length_bytes, List.drop_left]

theorem transformFrame_ok {json : SerdeJson} {mode : SseRestorationMode}
    {restore : Str → StateM σ Str} {frame out : List UInt8} {st st' : σ}
    (h : transformFrame json mode restore frame st = (.ok out, st')) :
    ∃ text, bytes text = frame ∧ Transformed json mode restore text st out st' := by
  unfold transformFrame at h
  obtain ⟨text, _, hdecode, h⟩ := Effect.bind_ok_iff.mp h
  obtain ⟨htext, rfl⟩ := Effect.okOr_ok_iff.mp hdecode
  obtain rfl := bytes_of_fromUtf8 htext
  obtain ⟨⟨header, dataLine⟩, _, hscan, h⟩ := Effect.bind_ok_iff.mp h
  obtain ⟨hlines, rfl⟩ := Effect.ofExcept_ok_iff.mp hscan
  refine ⟨text, rfl, ?_⟩
  obtain ⟨_, hflat⟩ := isLines_splitInclusive text
  rcases scanLines_none hlines with ⟨rfl, hnone⟩ | ⟨before, line, after, hsplit, hdata, hrest, rfl⟩
  · obtain ⟨rfl, rfl⟩ := Effect.pure_ok_iff.mp h
    exact .noData hnone
  simp only at h
  obtain ⟨data, _, hdataOk, h⟩ := Effect.bind_ok_iff.mp h
  obtain ⟨hstrip, rfl⟩ := Effect.okOr_ok_iff.mp hdataOk
  have hpayload : trimStart data = payload line := by
    have hcontent : stripPrefix "data:".toList (content line) = some data := hstrip
    rw [stripPrefix, if_pos (show "data:".toList.isPrefixOf (content line) = true from hdata)]
      at hcontent
    rw [← Option.some.inj hcontent]
    rfl
  rw [hpayload] at h
  split at h
  · obtain ⟨rfl, rfl⟩ := Effect.pure_ok_iff.mp h
    exact .done hsplit hdata hrest ‹_›
  obtain ⟨event, _, heventOk, h⟩ := Effect.bind_ok_iff.mp h
  obtain ⟨hevent, rfl⟩ := Effect.okOr_ok_iff.mp heventOk
  obtain ⟨eventType, _, htypeOk, h⟩ := Effect.bind_ok_iff.mp h
  obtain ⟨htype, rfl⟩ := Effect.okOr_ok_iff.mp htypeOk
  split at h
  · exact absurd h Effect.throw_ok_iff
  split at h
  · rename_i hnot
    obtain ⟨rfl, rfl⟩ := Effect.pure_ok_iff.mp h
    exact .passed hsplit hdata hrest hevent htype (by simpa using hnot)
  · rename_i hrestorable
    obtain ⟨event', st₁, hrestore, h⟩ := Effect.bind_ok_iff.mp h
    obtain ⟨serialized, _, hserializedOk, h⟩ := Effect.bind_ok_iff.mp h
    obtain ⟨hserialized, rfl⟩ := Effect.okOr_ok_iff.mp hserializedOk
    obtain ⟨rfl, rfl⟩ := Effect.pure_ok_iff.mp h
    have hcanonical := SerdeJson.canonical_fromStr hevent
    have hrestores := restoreEvent_ok hcanonical hrestore
    have hcanonical' : event'.Canonical := hrestores.2 ▸ canonical_replaceLeaves hcanonical _
    have htextSplit : text = before.flatten ++ (line ++ after.flatten) := by
      rw [← hflat, hsplit]
      simp
    have htake : (bytes text).take (0 + len before.flatten) = bytes before.flatten := by
      rw [htextSplit, Nat.zero_add, take_bytes_append]
    have hdrop : (bytes text).drop (0 + len before.flatten + len line) = bytes after.flatten := by
      rw [htextSplit, Nat.zero_add, ← List.append_assoc, ← len_append, drop_bytes_append]
    rw [htake, hdrop]
    have hout : bytes before.flatten ++ bytes "data: ".toList ++ serialized ++
        bytes (lineEnding line) ++ bytes after.flatten = bytes before.flatten ++
          (bytes "data: ".toList ++ serialized ++ bytes (lineEnding line)) ++ bytes after.flatten := by
      simp only [List.append_assoc]
    exact hout ▸ .restored hsplit hdata hrest hevent htype (by simpa using hrestorable) hrestores
      hserialized (SerdeJson.fromStr_toVec hcanonical' hserialized)

end Transformed

end AgentVeil
