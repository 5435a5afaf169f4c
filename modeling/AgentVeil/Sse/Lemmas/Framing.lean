import AgentVeil.Sse

/-!
# Frames and chunks

Bytes that come later never move a frame end that was found. So what a chunk completes and what the
next chunks complete are together what the whole stream completes.
-/

namespace AgentVeil

open Rust

theorem findFrameEnd_bounds {s : List UInt8} {n : Nat} (h : findFrameEnd s = some n) :
    2 ≤ n ∧ n ≤ s.length := by
  induction s generalizing n with
  | nil => cases h
  | cons b s ih =>
      simp only [findFrameEnd] at h
      split at h
      · rename_i hp
        cases h
        exact ⟨Nat.le_refl _, (List.isPrefixOf_iff_prefix.mp hp).length_le⟩
      · split at h
        · rename_i hp
          cases h
          exact ⟨by omega, (List.isPrefixOf_iff_prefix.mp hp).length_le⟩
        · obtain ⟨m, hm, rfl⟩ := Option.map_eq_some_iff.mp h
          obtain ⟨h₁, h₂⟩ := ih hm
          exact ⟨by omega, by rw [List.length_cons]; omega⟩

/-- A frame is a frame by itself. -/
theorem findFrameEnd_take {s : List UInt8} {n : Nat} (h : findFrameEnd s = some n) :
    findFrameEnd (s.take n) = some n := by
  induction s generalizing n with
  | nil => cases h
  | cons b s ih =>
      simp only [findFrameEnd] at h
      split at h
      · rename_i hp
        obtain ⟨r, hr⟩ := List.isPrefixOf_iff_prefix.mp hp
        cases h
        rw [← hr]
        rfl
      · rename_i h2
        split at h
        · rename_i hp
          obtain ⟨r, hr⟩ := List.isPrefixOf_iff_prefix.mp hp
          cases h
          rw [← hr]
          rfl
        · rename_i h4
          obtain ⟨m, hm, rfl⟩ := Option.map_eq_some_iff.mp h
          have hshort : ∀ p : List UInt8, ¬p.isPrefixOf (b :: s) = true →
              ¬p.isPrefixOf (b :: s.take m) = true := by
            intro p hp hshort
            refine hp (List.isPrefixOf_iff_prefix.mpr
              ((List.isPrefixOf_iff_prefix.mp hshort).trans ?_))
            exact List.cons_prefix_cons.mpr ⟨rfl, List.take_prefix m s⟩
          rw [List.take_succ_cons, findFrameEnd, if_neg (hshort _ h2), if_neg (hshort _ h4), ih hm,
            Option.map_some]

/-- Bytes that follow do not move a frame end. -/
theorem findFrameEnd_append {s : List UInt8} {n : Nat} (h : findFrameEnd s = some n)
    (t : List UInt8) : findFrameEnd (s ++ t) = some n := by
  induction s generalizing n with
  | nil => cases h
  | cons b s ih =>
      simp only [findFrameEnd] at h
      split at h
      · rename_i hp
        obtain ⟨r, hr⟩ := List.isPrefixOf_iff_prefix.mp hp
        cases h
        rw [← hr]
        rfl
      · rename_i h2
        split at h
        · rename_i hp
          obtain ⟨r, hr⟩ := List.isPrefixOf_iff_prefix.mp hp
          cases h
          rw [← hr]
          rfl
        · rename_i h4
          obtain ⟨m, hm, rfl⟩ := Option.map_eq_some_iff.mp h
          obtain ⟨hm2, hle⟩ := findFrameEnd_bounds hm
          have hsub : ∀ p : List UInt8, p.length ≤ s.length + 1 → ¬p.isPrefixOf (b :: s) = true →
              ¬p.isPrefixOf (b :: (s ++ t)) = true := by
            intro p hlen hp hlong
            exact hp (List.isPrefixOf_iff_prefix.mpr (List.prefix_of_prefix_length_le
              (List.isPrefixOf_iff_prefix.mp hlong) ⟨t, rfl⟩ hlen))
          have h4' : ¬[0x0D, 0x0A, 0x0D, 0x0A].isPrefixOf (b :: (s ++ t)) = true := by
            by_cases hlen : 3 ≤ s.length
            · exact hsub _ (by simp; omega) h4
            · -- two bytes that end a frame are no carriage return in the middle
              intro hp
              obtain ⟨x, y, rfl⟩ := List.length_eq_two.mp (show s.length = 2 by omega)
              obtain ⟨r, hr⟩ := List.isPrefixOf_iff_prefix.mp hp
              simp only [List.cons_append, List.nil_append, List.cons.injEq] at hr
              obtain ⟨_, rfl, rfl, _⟩ := hr
              cases hm
          rw [List.cons_append, findFrameEnd, if_neg (hsub _ (by simp; omega) h2), if_neg h4', ih hm,
            Option.map_some]

/-- A frame end depends on the bytes of the frame only. -/
theorem findFrameEnd_of_append {s t : List UInt8} {n : Nat} (h : findFrameEnd (s ++ t) = some n)
    (hn : n ≤ s.length) : findFrameEnd s = some n := by
  have hframe := findFrameEnd_append (findFrameEnd_take h) (s.drop n)
  rwa [List.take_append_of_le_length hn, List.take_append_drop] at hframe

/-! ## The frames of a stream -/

/-- The frames of a stream and the bytes after the last one. -/
inductive Frames : List UInt8 → List (List UInt8) → List UInt8 → Prop where
  | tail {s} : findFrameEnd s = none → Frames s [] s
  | frame {s n fs t} : findFrameEnd s = some n → Frames (s.drop n) fs t → Frames s (s.take n :: fs) t

theorem exists_frames (s : List UInt8) : ∃ fs t, Frames s fs t := by
  induction hn : s.length using Nat.strong_induction_on generalizing s with
  | _ n ih =>
      cases h : findFrameEnd s with
      | none => exact ⟨[], s, .tail h⟩
      | some m =>
          obtain ⟨h₁, h₂⟩ := findFrameEnd_bounds h
          obtain ⟨fs, t, hs⟩ := ih _ (by rw [List.length_drop]; omega) (s.drop m) rfl
          exact ⟨_, t, .frame h hs⟩

theorem Frames.flatten {s : List UInt8} {fs : List (List UInt8)} {t : List UInt8}
    (h : Frames s fs t) : fs.flatten ++ t = s := by
  induction h with
  | tail _ => rfl
  | @frame s n fs t _ _ ih => rw [List.flatten_cons, List.append_assoc, ih, List.take_append_drop]

theorem Frames.rest {s : List UInt8} {fs : List (List UInt8)} {t : List UInt8}
    (h : Frames s fs t) : findFrameEnd t = none := by
  induction h with
  | tail hnone => exact hnone
  | frame _ _ ih => exact ih

theorem Frames.unique {s : List UInt8} {fs fs' : List (List UInt8)} {t t' : List UInt8}
    (h : Frames s fs t) (h' : Frames s fs' t') : fs = fs' ∧ t = t' := by
  induction h generalizing fs' with
  | tail hnone =>
      cases h' with
      | tail _ => exact ⟨rfl, rfl⟩
      | frame hsome _ => rw [hnone] at hsome; cases hsome
  | frame hsome _ ih =>
      cases h' with
      | tail hnone => rw [hnone] at hsome; cases hsome
      | frame hsome' hrest =>
          rw [hsome] at hsome'
          cases hsome'
          obtain ⟨rfl, rfl⟩ := ih hrest
          exact ⟨rfl, rfl⟩

/-- The tail of one part of the stream goes on in the next. -/
theorem Frames.append {s t : List UInt8} {fs : List (List UInt8)} (h : Frames s fs t)
    {s' t' : List UInt8} {fs' : List (List UInt8)} (h' : Frames (t ++ s') fs' t') :
    Frames (s ++ s') (fs ++ fs') t' := by
  induction h with
  | tail _ => exact h'
  | @frame s n fs t hsome _ ih =>
      have hle := (findFrameEnd_bounds hsome).2
      have := Frames.frame (findFrameEnd_append hsome s')
        (by rw [List.drop_append_of_le_length hle]; exact ih h')
      rwa [List.take_append_of_le_length hle] at this

/-- A buffer without a frame end is shorter than the frame it belongs to. -/
theorem Frames.length_le {s s' t : List UInt8} {fs : List (List UInt8)} {bound : Nat}
    (h : Frames (s ++ s') fs t) (hs : findFrameEnd s = none) (hfs : ∀ f ∈ fs, f.length ≤ bound)
    (ht : t.length ≤ bound) : s.length ≤ bound := by
  generalize hw : s ++ s' = w at h
  cases h with
  | tail _ =>
      rw [← hw, List.length_append] at ht
      omega
  | @frame _ n fs t hsome _ =>
      have hlen := hfs _ List.mem_cons_self
      rw [List.length_take] at hlen
      have hle := (findFrameEnd_bounds hsome).2
      by_contra hgt
      have hin : n ≤ s.length := by omega
      rw [← hw] at hsome
      rw [findFrameEnd_of_append hsome hin] at hs
      cases hs

/-! ## Pushing -/

section Pushing

variable {σ : Type} {json : SerdeJson} {mode : SseRestorationMode} {restore : Str → StateM σ Str}

/-- The frames, transformed one after another. -/
def transformAll (json : SerdeJson) (mode : SseRestorationMode) (restore : Str → StateM σ Str) :
    List (List UInt8) → Effect σ SseError (List (List UInt8))
  | [] => pure []
  | frame :: frames => do
      let out ← transformFrame json mode restore frame
      let outs ← transformAll json mode restore frames
      pure (out :: outs)

theorem transformAll_cons {frame : List UInt8} {frames outs : List (List UInt8)} {st st'' : σ} :
    transformAll json mode restore (frame :: frames) st = (.ok outs, st'') ↔
      ∃ out outs' st', transformFrame json mode restore frame st = (.ok out, st') ∧
        transformAll json mode restore frames st' = (.ok outs', st'') ∧ outs = out :: outs' := by
  simp only [transformAll, Effect.bind_ok_iff, Effect.pure_ok_iff]
  constructor
  · rintro ⟨out, st', h₁, outs', _, h₂, rfl, rfl⟩
    exact ⟨out, outs', st', h₁, h₂, rfl⟩
  · rintro ⟨out, outs', st', h₁, h₂, rfl⟩
    exact ⟨out, st', h₁, outs', _, h₂, rfl, rfl⟩

theorem transformAll_cons_error {frame : List UInt8} {frames : List (List UInt8)} {e : SseError}
    {st st'' : σ} : transformAll json mode restore (frame :: frames) st = (.error e, st'') ↔
      transformFrame json mode restore frame st = (.error e, st'') ∨
      ∃ out st', transformFrame json mode restore frame st = (.ok out, st') ∧
        transformAll json mode restore frames st' = (.error e, st'') := by
  have hpure : ∀ (a : List (List UInt8)) (st : σ),
      ¬(pure a : Effect σ SseError (List (List UInt8))) st = (.error e, st'') := nofun
  simp only [transformAll, Effect.bind_error_iff, hpure, and_false, exists_false, or_false]

theorem length_transformAll {fs outs : List (List UInt8)} {st st' : σ}
    (h : transformAll json mode restore fs st = (.ok outs, st')) : outs.length = fs.length := by
  induction fs generalizing outs st with
  | nil =>
      obtain ⟨⟩ := h
      rfl
  | cons f fs ih =>
      obtain ⟨out, outs', st₁, _, hrest, rfl⟩ := transformAll_cons.mp h
      rw [List.length_cons, List.length_cons, ih hrest]

theorem transformAll_append {fs fs' outs : List (List UInt8)} {st st'' : σ} :
    transformAll json mode restore (fs ++ fs') st = (.ok outs, st'') ↔
      ∃ outs₁ outs₂ st', transformAll json mode restore fs st = (.ok outs₁, st') ∧
        transformAll json mode restore fs' st' = (.ok outs₂, st'') ∧ outs = outs₁ ++ outs₂ := by
  induction fs generalizing outs st with
  | nil =>
      constructor
      · exact fun h => ⟨[], outs, st, rfl, h, rfl⟩
      · rintro ⟨_, _, _, ⟨⟩, h, rfl⟩
        exact h
  | cons f fs ih =>
      rw [List.cons_append, transformAll_cons]
      constructor
      · rintro ⟨out, outs', st₁, hf, hrest, rfl⟩
        obtain ⟨outs₁, outs₂, st₂, h₁, h₂, rfl⟩ := ih.mp hrest
        exact ⟨out :: outs₁, outs₂, st₂, transformAll_cons.mpr ⟨_, _, _, hf, h₁, rfl⟩, h₂, rfl⟩
      · rintro ⟨outs₁, outs₂, st₂, h₁, h₂, rfl⟩
        obtain ⟨out, outs', st₁, hf, hrest, rfl⟩ := transformAll_cons.mp h₁
        exact ⟨out, _, st₁, hf, ih.mpr ⟨_, _, _, hrest, h₂, rfl⟩, rfl⟩

/-- An error among the first frames is the error of all. -/
theorem transformAll_append_error {fs fs' : List (List UInt8)} {e : SseError} {st st'' : σ} :
    transformAll json mode restore (fs ++ fs') st = (.error e, st'') ↔
      transformAll json mode restore fs st = (.error e, st'') ∨
      ∃ outs st', transformAll json mode restore fs st = (.ok outs, st') ∧
        transformAll json mode restore fs' st' = (.error e, st'') := by
  induction fs generalizing st with
  | nil =>
      constructor
      · exact fun h => .inr ⟨[], st, rfl, h⟩
      · rintro (⟨⟨⟩⟩ | ⟨_, _, ⟨⟩, h⟩)
        exact h
  | cons f fs ih =>
      rw [List.cons_append, transformAll_cons_error, transformAll_cons_error]
      constructor
      · rintro (h | ⟨out, st₁, hf, hrest⟩)
        · exact .inl (.inl h)
        · rcases ih.mp hrest with h | ⟨outs, st₂, h₁, h₂⟩
          · exact .inl (.inr ⟨out, st₁, hf, h⟩)
          · exact .inr ⟨_, st₂, transformAll_cons.mpr ⟨_, _, _, hf, h₁, rfl⟩, h₂⟩
      · rintro ((h | ⟨out, st₁, hf, h⟩) | ⟨outs, st₂, hok, h⟩)
        · exact .inl h
        · exact .inr ⟨out, st₁, hf, ih.mpr (.inl h)⟩
        · obtain ⟨out, outs', st₁, hf, hrest, rfl⟩ := transformAll_cons.mp hok
          exact .inr ⟨out, st₁, hf, ih.mpr (.inr ⟨outs', st₂, hrest, h⟩)⟩

/-- The loop of a push transforms the frames of the buffer. -/
theorem drainFrames_frames {buffer t : List UInt8} {fs outs : List (List UInt8)}
    (h : Frames buffer fs t) {st st' : σ} (hok : transformAll json mode restore fs st = (.ok outs, st'))
    {rounds : Nat} (hr : buffer.length ≤ rounds) :
    drainFrames json mode restore rounds buffer st = (.ok outs, t, st') := by
  induction h generalizing st outs rounds with
  | tail hnone =>
      obtain ⟨⟩ := hok
      cases rounds with
      | zero => rfl
      | succ rounds => simp only [drainFrames, hnone]
  | @frame s n fs t hsome _ ih =>
      obtain ⟨h₁, h₂⟩ := findFrameEnd_bounds hsome
      obtain ⟨out, outs', st₁, hf, hrest, rfl⟩ := transformAll_cons.mp hok
      cases rounds with
      | zero => omega
      | succ rounds =>
          have hdrain := ih hrest (show (s.drop n).length ≤ rounds by rw [List.length_drop]; omega)
          simp only [drainFrames, hsome, hf, hdrain]

/-- The loop of a push stops at the first frame that fails, which it has taken from the buffer. -/
theorem drainFrames_error {buffer t : List UInt8} {fs : List (List UInt8)} (h : Frames buffer fs t)
    {e : SseError} {st st' : σ} (herr : transformAll json mode restore fs st = (.error e, st'))
    {rounds : Nat} (hr : buffer.length ≤ rounds) : ∃ kept, kept.length < buffer.length ∧
      drainFrames json mode restore rounds buffer st = (.error e, kept, st') := by
  induction h generalizing st rounds with
  | tail hnone => obtain ⟨⟩ := herr
  | @frame s n fs t hsome _ ih =>
      obtain ⟨h₁, h₂⟩ := findFrameEnd_bounds hsome
      have hshort : (s.drop n).length < s.length := by
        rw [List.length_drop]
        omega
      cases rounds with
      | zero => omega
      | succ rounds =>
          rcases transformAll_cons_error.mp herr with hf | ⟨out, st₁, hf, hrest⟩
          · exact ⟨s.drop n, hshort, by simp only [drainFrames, hsome, hf]⟩
          · obtain ⟨kept, hlt, hdrain⟩ := ih hrest (show (s.drop n).length ≤ rounds by omega)
            exact ⟨kept, by omega, by simp only [drainFrames, hsome, hf, hdrain]⟩

/-- One push on a buffer without a frame end. -/
theorem push_frames {buffer chunk t : List UInt8} {fs outs : List (List UInt8)}
    (h : Frames (buffer ++ chunk) fs t)
    (hsize : findFrameEnd (buffer ++ chunk) = none → (buffer ++ chunk).length ≤ maxSseEventBytes)
    {st st' : σ} (hok : transformAll json mode restore fs st = (.ok outs, st')) :
    SseTransformer.push json restore ⟨buffer, mode⟩ chunk st = (.ok outs, ⟨t, mode⟩, st') := by
  have hnot : ¬(maxSseEventBytes < (buffer ++ chunk).length ∧ findFrameEnd (buffer ++ chunk) = none) :=
    fun ⟨hlt, hnone⟩ => absurd (hsize hnone) (Nat.not_le.mpr hlt)
  simp only [SseTransformer.push]
  rw [if_neg hnot, drainFrames_frames h hok (Nat.le_refl _)]

theorem push_error {buffer chunk t : List UInt8} {fs : List (List UInt8)}
    (h : Frames (buffer ++ chunk) fs t) {e : SseError} {st st' : σ}
    (herr : transformAll json mode restore fs st = (.error e, st')) :
    ∃ kept, kept.length < (buffer ++ chunk).length ∧
      SseTransformer.push json restore ⟨buffer, mode⟩ chunk st = (.error e, ⟨kept, mode⟩, st') := by
  have hsome : findFrameEnd (buffer ++ chunk) ≠ none := by
    intro hnone
    obtain ⟨rfl, _⟩ := h.unique (.tail hnone)
    obtain ⟨⟩ := herr
  obtain ⟨kept, hlt, hdrain⟩ := drainFrames_error h herr (Nat.le_refl _)
  refine ⟨kept, hlt, ?_⟩
  simp only [SseTransformer.push]
  rw [if_neg fun hnot => hsome hnot.2, hdrain]

/-- A push is refused, with nothing taken from the buffer, exactly when the buffer grows over the
limit without a frame end. -/
theorem push_refused_iff {buffer chunk : List UInt8} {st : σ} :
    SseTransformer.push json restore ⟨buffer, mode⟩ chunk st
        = (.error .oversizeEvent, ⟨buffer ++ chunk, mode⟩, st) ↔
      findFrameEnd (buffer ++ chunk) = none ∧ maxSseEventBytes < (buffer ++ chunk).length := by
  constructor
  · intro h
    by_contra hnot
    obtain ⟨fs, t, hfs⟩ := exists_frames (buffer ++ chunk)
    cases hok : transformAll json mode restore fs st with
    | mk r st' =>
        cases r with
        | ok outs =>
            have hpush := @push_frames _ json mode restore _ _ _ _ _ hfs
              (fun hnone => Nat.not_lt.mp fun hlt => hnot ⟨hnone, hlt⟩) _ _ hok
            rw [hpush] at h
            cases h
        | error e =>
            obtain ⟨kept, hlt, hpush⟩ := push_error hfs hok
            rw [hpush] at h
            cases h
            exact Nat.lt_irrefl _ hlt
  · rintro ⟨hnone, hsize⟩
    simp only [SseTransformer.push]
    rw [if_pos ⟨hsize, hnone⟩]

/-- The chunks pushed one after another, up to the first error. -/
def pushAll (json : SerdeJson) (restore : Str → StateM σ Str) :
    SseTransformer → List (List UInt8) → σ →
      Except SseError (List (List UInt8)) × SseTransformer × σ
  | self, [], st => (.ok [], self, st)
  | self, chunk :: chunks, st =>
      match self.push json restore chunk st with
      | (.error e, rest) => (.error e, rest)
      | (.ok frames, self, st) =>
          match pushAll json restore self chunks st with
          | (.error e, rest) => (.error e, rest)
          | (.ok more, rest) => (.ok (frames ++ more), rest)

theorem pushAll_concat (self : SseTransformer) (chunks : List (List UInt8)) (chunk : List UInt8)
    (st : σ) : pushAll json restore self (chunks ++ [chunk]) st =
      match pushAll json restore self chunks st with
      | (.error e, rest) => (.error e, rest)
      | (.ok frames, self, st) =>
          match self.push json restore chunk st with
          | (.error e, rest) => (.error e, rest)
          | (.ok more, rest) => (.ok (frames ++ more), rest) := by
  induction chunks generalizing self st with
  | nil =>
      simp only [List.nil_append, pushAll]
      rcases self.push json restore chunk st with ⟨e | outs, self', st'⟩
      · rfl
      · simp
  | cons c chunks ih =>
      simp only [List.cons_append, pushAll, ih]
      rcases self.push json restore c st with ⟨e | outs, self', st'⟩
      · rfl
      simp only
      rcases pushAll json restore self' chunks st' with ⟨e | outs', self'', st''⟩
      · rfl
      simp only
      rcases self''.push json restore chunk st'' with ⟨e | outs'', self₃, st₃⟩
      · simp only
      · simp only [List.append_assoc]

/-- However the rest of the stream is cut, the frames are transformed once each, in order. -/
theorem pushAll_frames {chunks : List (List UInt8)} {buffer t : List UInt8}
    {fs outs : List (List UInt8)} (h : Frames (buffer ++ chunks.flatten) fs t)
    (hbuffer : findFrameEnd buffer = none) (hfs : ∀ f ∈ fs, f.length ≤ maxSseEventBytes)
    (ht : t.length ≤ maxSseEventBytes) {st st' : σ}
    (hok : transformAll json mode restore fs st = (.ok outs, st')) :
    pushAll json restore ⟨buffer, mode⟩ chunks st = (.ok outs, ⟨t, mode⟩, st') := by
  induction chunks generalizing buffer fs outs st with
  | nil =>
      rw [List.flatten_nil, List.append_nil] at h
      obtain ⟨rfl, rfl⟩ := h.unique (.tail hbuffer)
      obtain ⟨⟩ := hok
      rfl
  | cons chunk chunks ih =>
      rw [List.flatten_cons, ← List.append_assoc] at h
      obtain ⟨fs₁, t₁, h₁⟩ := exists_frames (buffer ++ chunk)
      obtain ⟨fs₂, t₂, h₂⟩ := exists_frames (t₁ ++ chunks.flatten)
      obtain ⟨rfl, rfl⟩ := h.unique (h₁.append h₂)
      obtain ⟨outs₁, outs₂, st₁, hok₁, hok₂, rfl⟩ := transformAll_append.mp hok
      have hpush := @push_frames _ json mode restore _ _ _ _ _ h₁
        (fun hnone => h.length_le hnone hfs ht) _ _ hok₁
      have hrest := ih h₂ h₁.rest (fun f hf => hfs f (List.mem_append_right _ hf)) hok₂
      simp only [pushAll, hpush, hrest]

end Pushing

end AgentVeil
