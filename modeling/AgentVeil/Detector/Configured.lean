import AgentVeil.Detector.Coverage
import Mathlib.Data.List.TakeWhile

/-!
# Home paths

A finding for a configured prefix ends at the first white space after its start, so it covers the
prefix exactly when the prefix has none.
-/

namespace AgentVeil

open Rust Rust.Regex

variable {source : Str} {view : ScanView}

/-- The bytes of the path that starts at `start`. -/
def homeRange (view : ScanView) (start : Nat) : Fallible DetectorError Span := do
  let rest ← orPanic (sliceFrom? view.text start)
  let stop :=
    match findChar isWhitespace rest with
    | none => len view.text
    | some relative => start + relative
  .ok ⟨start, stop⟩

theorem scanHomeAt_eq (view : ScanView) (start : Nat) :
    scanHomeAt view start = (do
      let range ← homeRange view start
      let f ← view.finding range .homePath .homePath .high
      .ok [f]) := by
  unfold scanHomeAt homeRange
  cases sliceFrom? view.text start <;> rfl

theorem findChar_eq_none {p : Char → Bool} {s : Str} (h : findChar p s = none) :
    ∀ c ∈ s, p c = false := by
  induction s with
  | nil => simp
  | cons c s ih =>
      unfold findChar at h
      cases hc : p c with
      | true => simp [hc] at h
      | false =>
          simp only [hc, Bool.false_eq_true, ↓reduceIte, Option.map_eq_none_iff] at h
          exact List.forall_mem_cons.mpr ⟨hc, ih h⟩

/-- The path goes on to the first white space. -/
theorem homeRange_eq {p rest : Str} (h : view.text = p ++ rest) :
    homeRange view (len p)
      = .ok ⟨len p, len p + len (rest.takeWhile fun c => !isWhitespace c)⟩ := by
  have hslice : sliceFrom? view.text (len p) = some rest := by
    rw [h, sliceFrom?, splitAt?_append]
    rfl
  simp only [homeRange, hslice, orPanic, ok_bind]
  cases hf : findChar isWhitespace rest with
  | none =>
      have hall : rest.takeWhile (fun c => !isWhitespace c) = rest :=
        List.takeWhile_eq_self_iff.mpr fun c hc => by simp [findChar_eq_none hf c hc]
      rw [hall, h, len_append]
  | some relative =>
      obtain ⟨a, c, b, rfl, rfl, hc, ha⟩ := findChar_eq_some hf
      have htake : (a ++ c :: b).takeWhile (fun c => !isWhitespace c) = a := by
        rw [List.takeWhile_append_of_pos fun x hx => by simp [ha x hx]]
        simp [hc]
      rw [htake]

/-- The finding at `start` covers the prefix and the characters after it up to the next white space
or the end of the text. -/
def CoversHome (view : ScanView) (home : Str) (start : Nat) : Prop :=
  ∃ range f, homeRange view start = .ok range ∧
    view.finding range .homePath .homePath .high = .ok f ∧ scanHomeAt view start = .ok [f] ∧
    range.start < range.stop ∧
    ∀ p segment q, view.text = p ++ (home ++ segment) ++ q → len p = start →
      (∀ c ∈ segment, isWhitespace c = false) →
        range.start ≤ len p ∧ len (p ++ (home ++ segment)) ≤ range.stop

/-- For an admitted prefix, every finding covers the prefix exactly when no character of the prefix is
white space. -/
theorem coversHome_iff {settings : DetectorSettings}
    (hs : validateDetectorSettings settings = .ok ()) {home : Str}
    (hhome : home ∈ settings.homePrefixes) (hv : view.MapsTo source) {start : Nat}
    (hstart : start ∈ matchIndices home view.text) :
    CoversHome view home start ↔ ∀ c ∈ home, isWhitespace c = false := by
  obtain ⟨p, q, htext, rfl⟩ := mem_matchIndices hstart
  rw [List.append_assoc] at htext
  have hrange := homeRange_eq htext
  constructor
  · intro ⟨range, f, hr, _, _, _, hcovers⟩
    rw [hrange] at hr
    cases hr
    have hle := (hcovers p [] q (by simpa using htext) rfl (by simp)).2
    by_contra hblank
    -- the prefix has a first white space, and the path ends there
    cases hf : findChar isWhitespace home with
    | none => exact hblank (findChar_eq_none hf)
    | some i =>
        obtain ⟨a, c, b, rfl, rfl, hc, ha⟩ := findChar_eq_some hf
        have htake : (a ++ c :: b ++ q).takeWhile (fun c => !isWhitespace c) = a := by
          rw [List.append_assoc, List.takeWhile_append_of_pos fun x hx => by simp [ha x hx]]
          simp [hc]
        have := c.utf8Size_pos
        rw [htake] at hle
        simp only [List.append_nil, len_append, len_cons] at hle
        omega
  · intro hword
    have hall : ∀ segment q, (∀ c ∈ segment, isWhitespace c = false) →
        len (home ++ segment) ≤ len ((home ++ segment ++ q).takeWhile fun c => !isWhitespace c) := by
      intro segment q hsegment
      rw [List.takeWhile_append_of_pos (fun c hc => ?_), len_append _ (q.takeWhile _)]
      · exact Nat.le_add_right _ _
      · rcases List.mem_append.mp hc with hc | hc
        · simp [hword c hc]
        · simp [hsegment c hc]
    have hpos := (Scanner.configured_new hs).homes home hhome
    have hle := hall [] q (by simp)
    rw [List.append_nil] at hle
    have hstop : len p + len ((home ++ q).takeWhile fun c => !isWhitespace c) ≤ len view.text := by
      have := congrArg len (@List.takeWhile_append_dropWhile _ (fun c => !isWhitespace c) (home ++ q))
      rw [len_append] at this
      rw [htext, len_append]
      omega
    obtain ⟨f, hf, _⟩ := @ScanView.finding_ok _ _ hv ⟨len p, _⟩ (by simp only; omega) hstop .homePath
      .homePath .high
    refine ⟨_, f, hrange, hf, ?_, by simp only; omega, ?_⟩
    · simp only [scanHomeAt_eq, hrange, hf, ok_bind]
    · intro p' segment q' htext' hp' hsegment
      obtain ⟨rfl, hrest⟩ := append_split_eq
        (by rw [← htext, htext', List.append_assoc] : p ++ (home ++ q) = p' ++ _) hp'.symm
      have := hall segment q' hsegment
      rw [hrest, len_append p]
      exact ⟨Nat.le_refl _, by simp only; omega⟩

/-- A prefix that begins with a blank makes the scan fail, and one with a blank inside is cut off
there. -/
theorem coversHome_blank :
    validateDetectorSettings ⟨[], [], [" /srv".toList, "/srv/a b".toList]⟩ = .ok () ∧
    (Scanner.new ⟨[], [], [" /srv".toList]⟩).scan Unicode.ascii "in /srv/x".toList
      = err .invalidSourceMap ∧
    homeRange (distinctView "/srv/a b/c".toList) 0 = .ok ⟨0, 6⟩ ∧
    ¬CoversHome (distinctView "/srv/a b/c".toList) "/srv/a b".toList 0 := by
  refine ⟨by decide, by decide, by decide, ?_⟩
  intro ⟨range, f, hr, _, _, _, hcovers⟩
  have hrange : homeRange (distinctView "/srv/a b/c".toList) 0 = .ok ⟨0, 6⟩ := by decide
  rw [hrange] at hr
  cases hr
  have hsegment : ∀ c ∈ "/c".toList, isWhitespace c = false := by
    simp [isWhitespace]
  have := (hcovers [] "/c".toList [] rfl rfl hsegment).2
  exact absurd this (by decide)

theorem coversHome_demo : CoversHome (distinctView "/srv/a".toList) "/srv".toList 0 ↔
    ∀ c ∈ "/srv".toList, isWhitespace c = false :=
  coversHome_iff (by decide : validateDetectorSettings ⟨[], [], ["/srv".toList]⟩ = .ok ())
    (List.mem_singleton.mpr rfl) (mapsTo_distinctView _) (by decide)

end AgentVeil
