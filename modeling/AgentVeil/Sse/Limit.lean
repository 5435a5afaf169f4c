import AgentVeil.Sse.Lemmas.Framing
import Mathlib.Data.List.Induction

/-!
# The frame limit

A push is refused when the buffer grows over the limit without a frame end. So the limit holds for a
frame when a chunk that starts in it brings more than the limit of its bytes and not its end. A
frame whose end comes sooner is transformed, whatever its size.
-/

namespace AgentVeil

open Rust

variable {σ : Type}

/-- The bytes of a frame, or of the tail, are within the limit. -/
def WithinLimit (frame : List UInt8) : Prop := frame.length ≤ maxSseEventBytes

/-- The chunks `before` are accepted and complete the frames `done`. The next chunk is refused with
nothing taken from the buffer and nothing restored. -/
structure Refuses (json : SerdeJson) (mode : SseRestorationMode) (restore : Str → StateM σ Str)
    (st : σ) (before : List (List UInt8)) (chunk : List UInt8) (done : List (List UInt8))
    (kept : List UInt8) : Prop where
  frames : Frames before.flatten done kept
  refused : ∃ outs st', transformAll json mode restore done st = (.ok outs, st') ∧
    pushAll json restore (.new mode) before st = (.ok outs, ⟨kept, mode⟩, st') ∧
    SseTransformer.push json restore ⟨kept, mode⟩ chunk st'
      = (.error .oversizeEvent, ⟨kept ++ chunk, mode⟩, st')

/-- The run is refused before the frame that follows `pre` is complete, and no frame but those of
`pre` is transformed: all of them, when they are within the limit. -/
def RefusedAfter (json : SerdeJson) (mode : SseRestorationMode) (restore : Str → StateM σ Str)
    (st : σ) (chunks pre : List (List UInt8)) : Prop :=
  ∃ before chunk after done kept, chunks = before ++ chunk :: after ∧ done <+: pre ∧
    ((∀ f ∈ pre, WithinLimit f) → done = pre) ∧
    Refuses json mode restore st before chunk done kept

/-- One of the frames `pre` fails, and the run ends with its error. -/
def FailsWithin (json : SerdeJson) (mode : SseRestorationMode) (restore : Str → StateM σ Str)
    (st : σ) (chunks pre : List (List UInt8)) : Prop :=
  ∃ e st' self, transformAll json mode restore pre st = (.error e, st') ∧
    pushAll json restore (.new mode) chunks st = (.error e, self, st')

/-- The limit holds for a way of cutting a stream. No frame over it is transformed, and it is refused
by the push that completes it at the latest, unless a frame before it has failed by itself. A stream
within the limit is transformed like its frames, however it is cut. -/
structure LimitHolds (json : SerdeJson) (mode : SseRestorationMode)
    (restore : Str → StateM σ Str) (st : σ) (chunks : List (List UInt8)) : Prop where
  oversize : ∀ {fs t pre f rest}, Frames chunks.flatten fs t → fs ++ [t] = pre ++ f :: rest →
    ¬WithinLimit f →
    RefusedAfter json mode restore st chunks pre ∨ FailsWithin json mode restore st chunks pre
  within : ∀ {fs t}, Frames chunks.flatten fs t → (∀ f ∈ fs ++ [t], WithinLimit f) →
    ∃ self, pushAll json restore (.new mode) chunks st
      = ((transformAll json mode restore fs st).1, self, (transformAll json mode restore fs st).2)

/-- A chunk that starts in the frame after `pre` brings more than the limit of its bytes, and not
its end. -/
def CutWithin (chunks pre : List (List UInt8)) (f : List UInt8) (rest : List (List UInt8)) : Prop :=
  ∃ before chunk after, chunks = before ++ chunk :: after ∧
    pre.flatten.length ≤ before.flatten.length ∧
    pre.flatten.length + maxSseEventBytes < before.flatten.length + chunk.length ∧
    (rest ≠ [] → before.flatten.length + chunk.length < pre.flatten.length + f.length)

/-! ## Runs -/

section Runs

variable {json : SerdeJson} {mode : SseRestorationMode} {restore : Str → StateM σ Str} {st : σ}

/-- Bytes without a frame end are the start of the next frame. -/
theorem Frames.starts {w s t : List UInt8} {fs : List (List UInt8)} (h : Frames (w ++ s) fs t)
    (hw : findFrameEnd w = none) : ∃ g more, fs ++ [t] = g :: more ∧ w.length ≤ g.length ∧
      (more ≠ [] → w.length < g.length) := by
  generalize hs : w ++ s = whole at h
  cases h with
  | tail _ =>
      refine ⟨t, [], rfl, ?_, fun h => absurd rfl h⟩
      rw [← hs, List.length_append]
      exact Nat.le_add_right _ _
  | @frame _ n fs t hsome hrest =>
      have hn := (findFrameEnd_bounds hsome).2
      have hlt : w.length < n := by
        by_contra hle
        rw [← hs] at hsome
        rw [findFrameEnd_of_append hsome (Nat.not_lt.mp hle)] at hw
        cases hw
      refine ⟨whole.take n, fs ++ [t], rfl, ?_, fun _ => ?_⟩
      · rw [List.length_take]
        omega
      · rw [List.length_take]
        omega

/-- Accepted chunks transform the frames they complete. -/
theorem pushAll_ok {chunks outs : List (List UInt8)} {self : SseTransformer} {st' : σ}
    (h : pushAll json restore (.new mode) chunks st = (.ok outs, self, st')) :
    ∃ fs t, Frames chunks.flatten fs t ∧ transformAll json mode restore fs st = (.ok outs, st') ∧
      self = ⟨t, mode⟩ := by
  induction chunks using List.reverseRecOn generalizing outs self st' with
  | nil =>
      obtain ⟨⟩ := h
      exact ⟨[], [], .tail rfl, rfl, rfl⟩
  | append_singleton chunks chunk ih =>
      rw [pushAll_concat] at h
      rcases hall : pushAll json restore (.new mode) chunks st with ⟨e | outs₁, self₁, st₁⟩
      · rw [hall] at h
        cases h
      obtain ⟨fs₁, t₁, h₁, hok₁, rfl⟩ := ih hall
      obtain ⟨fs₂, t₂, h₂⟩ := exists_frames (t₁ ++ chunk)
      rw [hall] at h
      simp only at h
      have hsize : ¬(findFrameEnd (t₁ ++ chunk) = none ∧
          maxSseEventBytes < (t₁ ++ chunk).length) := by
        intro hsize
        rw [push_refused_iff.mpr hsize] at h
        cases h
      rcases hok₂ : transformAll json mode restore fs₂ st₁ with ⟨e | outs₂, st₂⟩
      · obtain ⟨kept, _, hpush⟩ := push_error h₂ hok₂
        rw [hpush] at h
        cases h
      · rw [@push_frames _ json mode restore _ _ _ _ _ h₂
          (fun hnone => Nat.not_lt.mp fun hlt => hsize ⟨hnone, hlt⟩) _ _ hok₂] at h
        cases h
        refine ⟨fs₁ ++ fs₂, t₂, ?_, transformAll_append.mpr ⟨_, _, _, hok₁, hok₂, rfl⟩, rfl⟩
        rw [List.flatten_append, List.flatten_singleton]
        exact h₁.append h₂

/-- A run that no frame fails goes through or is refused. -/
theorem pushAll_or_refused {chunks fs outs : List (List UInt8)} {t : List UInt8} {st' : σ}
    (h : Frames chunks.flatten fs t)
    (hok : transformAll json mode restore fs st = (.ok outs, st')) :
    pushAll json restore (.new mode) chunks st = (.ok outs, ⟨t, mode⟩, st') ∨
    ∃ before chunk after done kept, chunks = before ++ chunk :: after ∧ done <+: fs ∧
      Refuses json mode restore st before chunk done kept := by
  induction chunks using List.reverseRecOn generalizing fs outs t st' with
  | nil =>
      obtain ⟨rfl, rfl⟩ := h.unique (.tail rfl)
      obtain ⟨⟩ := hok
      exact .inl rfl
  | append_singleton chunks chunk ih =>
      obtain ⟨fs₁, t₁, h₁⟩ := exists_frames chunks.flatten
      obtain ⟨fs₂, t₂, h₂⟩ := exists_frames (t₁ ++ chunk)
      rw [List.flatten_append, List.flatten_singleton] at h
      obtain ⟨rfl, rfl⟩ := h.unique (h₁.append h₂)
      obtain ⟨outs₁, outs₂, st₁, hok₁, hok₂, rfl⟩ := transformAll_append.mp hok
      rcases ih h₁ hok₁ with hall | ⟨before, chunk', after, done, kept, rfl, hdone, href⟩
      · by_cases hsize : findFrameEnd (t₁ ++ chunk) = none ∧
            maxSseEventBytes < (t₁ ++ chunk).length
        · exact .inr ⟨chunks, chunk, [], fs₁, t₁, rfl, List.prefix_append _ _, h₁, outs₁, st₁, hok₁,
            hall, push_refused_iff.mpr hsize⟩
        · have hpush := @push_frames _ json mode restore _ _ _ _ _ h₂
            (fun hnone => Nat.not_lt.mp fun hlt => hsize ⟨hnone, hlt⟩) _ _ hok₂
          rw [pushAll_concat, hall]
          exact .inl (by simp only [hpush])
      · exact .inr ⟨before, chunk', after ++ [chunk], done, kept, by simp,
          hdone.trans (List.prefix_append _ _), href⟩

/-- What is refused is the start of a frame over the limit, the first that is not complete. -/
theorem Refuses.next {before done fs : List (List UInt8)} {chunk kept t : List UInt8}
    (h : Refuses json mode restore st before chunk done kept) (after : List (List UInt8))
    (hs : Frames (before ++ chunk :: after).flatten fs t) : ∃ g more, fs ++ [t] = done ++ g :: more ∧
      maxSseEventBytes < kept.length + chunk.length ∧ ¬WithinLimit g ∧
      (more ≠ [] → kept.length + chunk.length < g.length) := by
  obtain ⟨outs, st', _, _, hpush⟩ := h.refused
  obtain ⟨hnone, hsize⟩ := push_refused_iff.mp hpush
  obtain ⟨fs₂, t₂, h₂⟩ := exists_frames (kept ++ chunk ++ after.flatten)
  have hall : Frames (before.flatten ++ (chunk ++ after.flatten)) (done ++ fs₂) t₂ :=
    h.frames.append (by rwa [← List.append_assoc])
  rw [List.flatten_append, List.flatten_cons] at hs
  obtain ⟨rfl, rfl⟩ := hs.unique hall
  obtain ⟨g, more, hg, hle, hlt⟩ := h₂.starts hnone
  rw [List.length_append] at hsize hle hlt
  exact ⟨g, more, by rw [List.append_assoc, hg], hsize, fun h => by
    unfold WithinLimit at h
    omega, hlt⟩

/-- The list of frames splits in one way at the first one over the limit. -/
theorem split_unique {pre pre' rest rest' : List (List UInt8)} {f f' : List UInt8}
    (h : pre ++ f :: rest = pre' ++ f' :: rest') (hpre : ∀ g ∈ pre, WithinLimit g)
    (hpre' : ∀ g ∈ pre', WithinLimit g) (hf : ¬WithinLimit f) (hf' : ¬WithinLimit f') :
    pre = pre' ∧ f = f' ∧ rest = rest' := by
  induction pre generalizing pre' with
  | nil =>
      cases pre' with
      | nil =>
          obtain ⟨rfl, rfl⟩ := List.cons.inj h
          exact ⟨rfl, rfl, rfl⟩
      | cons g pre' =>
          obtain ⟨rfl, _⟩ := List.cons.inj h
          exact absurd (hpre' f List.mem_cons_self) hf
  | cons g pre ih =>
      cases pre' with
      | nil =>
          obtain ⟨rfl, _⟩ := List.cons.inj h
          exact absurd (hpre g List.mem_cons_self) hf'
      | cons g' pre' =>
          obtain ⟨rfl, hrest⟩ := List.cons.inj h
          obtain ⟨rfl, hf, hr⟩ := ih hrest (fun g hg => hpre g (List.mem_cons_of_mem _ hg))
            (fun g hg => hpre' g (List.mem_cons_of_mem _ hg))
          exact ⟨rfl, hf, hr⟩

/-- Frames that are over the limit come after the first one that is. -/
theorem exists_first {pre rest : List (List UInt8)} {f : List UInt8} (hf : ¬WithinLimit f) :
    ∃ pre' f' rest', pre ++ f :: rest = pre' ++ f' :: rest' ∧ pre' <+: pre ∧
      (∀ g ∈ pre', WithinLimit g) ∧ ¬WithinLimit f' := by
  induction pre with
  | nil => exact ⟨[], f, rest, rfl, List.prefix_refl _, nofun, hf⟩
  | cons g pre ih =>
      by_cases hg : WithinLimit g
      · obtain ⟨pre', f', rest', hsplit, hpre, hwithin, hf'⟩ := ih
        refine ⟨g :: pre', f', rest', ?_, ?_, ?_, hf'⟩
        · rw [List.cons_append, hsplit, List.cons_append]
        · exact List.cons_prefix_cons.mpr ⟨rfl, hpre⟩
        · exact List.forall_mem_cons.mpr ⟨hg, hwithin⟩
      · exact ⟨[], g, pre ++ f :: rest, rfl, List.nil_prefix, nofun, hg⟩

/-- A part of the stream that reaches the frame after `pre` and not its end completes `pre`. -/
theorem Frames.complete {w s t t' : List UInt8} {fs fs' pre rest : List (List UInt8)}
    {f : List UInt8} (hw : Frames w fs t) (h : Frames (w ++ s) fs' t')
    (hsplit : fs' ++ [t'] = pre ++ f :: rest) (hstart : pre.flatten.length ≤ w.length)
    (hend : rest ≠ [] → w.length < pre.flatten.length + f.length) : fs = pre := by
  obtain ⟨fs₂, t₂, h₂⟩ := exists_frames (t ++ s)
  obtain ⟨rfl, rfl⟩ := h.unique (hw.append h₂)
  have hlen := congrArg List.length hw.flatten
  rw [List.length_append] at hlen
  rw [List.append_assoc] at hsplit
  rcases List.append_eq_append_iff.mp hsplit with ⟨more, rfl, hmore⟩ | ⟨more, rfl, hmore⟩
  · cases more with
    | nil => rw [List.append_nil]
    | cons g more =>
        -- A frame of `pre` that is not complete would be longer than what is there of it.
        obtain ⟨g', more', hg, _, hlt⟩ := h₂.starts hw.rest
        obtain ⟨rfl, rfl⟩ := List.cons.inj (hg.symm.trans hmore)
        have := hlt (by simp)
        simp only [List.flatten_append, List.flatten_cons, List.length_append] at hstart
        omega
  · cases more with
    | nil => rw [List.append_nil]
    | cons g more =>
        obtain ⟨rfl, rfl⟩ := List.cons.inj hmore
        have := hend (by simp)
        simp only [List.flatten_append, List.flatten_cons, List.length_append] at hlen
        omega

theorem RefusedAfter.cut {chunks fs pre rest : List (List UInt8)} {t f : List UInt8}
    (hs : Frames chunks.flatten fs t) (hsplit : fs ++ [t] = pre ++ f :: rest)
    (hpre : ∀ g ∈ pre, WithinLimit g) (hf : ¬WithinLimit f)
    (href : RefusedAfter json mode restore st chunks pre) : CutWithin chunks pre f rest := by
  obtain ⟨before, chunk, after, done, kept, rfl, _, hall, href⟩ := href
  obtain rfl := hall hpre
  obtain ⟨g, more, hg, hsize, hover, hlt⟩ := href.next after hs
  obtain ⟨_, rfl, rfl⟩ := split_unique (hg.symm.trans hsplit) hpre hpre hover hf
  have hlen := congrArg List.length href.frames.flatten
  rw [List.length_append] at hlen
  refine ⟨before, chunk, after, rfl, by omega, by omega, fun hmore => ?_⟩
  have := hlt hmore
  omega

theorem CutWithin.refused {chunks fs pre rest outs : List (List UInt8)} {t f : List UInt8} {st' : σ}
    (hs : Frames chunks.flatten fs t) (hsplit : fs ++ [t] = pre ++ f :: rest)
    (hpre : ∀ g ∈ pre, WithinLimit g) (hf : ¬WithinLimit f)
    (hok : transformAll json mode restore pre st = (.ok outs, st'))
    (hcut : CutWithin chunks pre f rest) : RefusedAfter json mode restore st chunks pre := by
  obtain ⟨before, chunk, after, rfl, hstart, hsize, hend⟩ := hcut
  obtain ⟨fs₁, t₁, h₁⟩ := exists_frames before.flatten
  obtain ⟨fs₂, t₂, h₂⟩ := exists_frames (t₁ ++ chunk)
  have hs' := hs
  rw [List.flatten_append, List.flatten_cons] at hs'
  obtain rfl := h₁.complete hs' hsplit hstart fun hrest => by
    have := hend hrest
    omega
  rw [← List.append_assoc] at hs'
  have hsame := (h₁.append h₂).complete hs' hsplit (by rw [List.length_append]; omega)
    (by rwa [List.length_append])
  obtain rfl : fs₂ = [] := by simpa using hsame
  have hlen := congrArg List.length h₁.flatten
  rw [List.length_append] at hlen
  rcases pushAll_or_refused h₁ hok with hall | ⟨before', chunk', after', done, kept, rfl, hdone, href⟩
  · refine ⟨before, chunk, after, fs₁, t₁, rfl, List.prefix_refl _, fun _ => rfl, h₁, outs, st',
      hok, hall, push_refused_iff.mpr ⟨?_, ?_⟩⟩
    · have := h₂.flatten
      rw [List.flatten_nil, List.nil_append] at this
      rw [← this]
      exact h₂.rest
    · rw [List.length_append]
      omega
  · refine ⟨before', chunk', after' ++ chunk :: after, done, kept, by simp, hdone, fun _ => ?_, href⟩
    obtain ⟨g, more, hg, _, hover, _⟩ :=
      href.next (after' ++ chunk :: after) (by simpa using hs)
    exact (split_unique (hg.symm.trans hsplit) (fun g hg => hpre g (hdone.subset hg)) hpre
      hover hf).1

/-- A frame that fails ends the run, if those before it are within the limit. -/
theorem pushAll_error {chunks fs pre : List (List UInt8)} {t : List UInt8} {e : SseError} {st' : σ}
    (h : Frames chunks.flatten fs t) (hsub : pre <+: fs) (hpre : ∀ f ∈ pre, WithinLimit f)
    (herr : transformAll json mode restore pre st = (.error e, st')) :
    ∃ self, pushAll json restore (.new mode) chunks st = (.error e, self, st') := by
  induction chunks using List.reverseRecOn generalizing fs pre t with
  | nil =>
      obtain ⟨rfl, rfl⟩ := h.unique (.tail rfl)
      obtain rfl := List.prefix_nil.mp hsub
      obtain ⟨⟩ := herr
  | append_singleton chunks chunk ih =>
      have earlier : ∀ {self}, pushAll json restore (.new mode) chunks st = (.error e, self, st') →
          ∃ self, pushAll json restore (.new mode) (chunks ++ [chunk]) st = (.error e, self, st') := by
        intro self hself
        rw [pushAll_concat, hself]
        exact ⟨self, rfl⟩
      have hs := h
      obtain ⟨fs₁, t₁, h₁⟩ := exists_frames chunks.flatten
      obtain ⟨fs₂, t₂, h₂⟩ := exists_frames (t₁ ++ chunk)
      rw [List.flatten_append, List.flatten_singleton] at h
      obtain ⟨rfl, rfl⟩ := h.unique (h₁.append h₂)
      obtain ⟨more, hmore⟩ := hsub
      rcases List.append_eq_append_iff.mp hmore with ⟨as, rfl, _⟩ | ⟨as, rfl, rfl⟩
      · obtain ⟨self, hself⟩ := ih h₁ (List.prefix_append _ _) hpre herr
        exact earlier hself
      rcases transformAll_append_error.mp herr with herr₁ | ⟨outs₁, st₁, hok₁, herr₂⟩
      · obtain ⟨self, hself⟩ := ih h₁ (List.prefix_refl _)
          (fun f hf => hpre f (List.mem_append_left _ hf)) herr₁
        exact earlier hself
      rcases pushAll_or_refused h₁ hok₁ with hall | ⟨before, chunk', after, done, kept, rfl, hdone, href⟩
      · obtain ⟨kept, _, hpush⟩ := push_error h₂ (transformAll_append_error.mpr (.inl herr₂))
        rw [pushAll_concat, hall]
        refine ⟨⟨kept, mode⟩, ?_⟩
        simp only [hpush]
      · -- What is refused would be a frame of `pre`, and over the limit.
        obtain ⟨g, rest, hg, _, hover, _⟩ := href.next (after ++ [chunk]) (by simpa using hs)
        obtain ⟨ds, rfl⟩ := hdone
        have hmem : g ∈ ds ++ as := by
          cases hds : ds ++ as with
          | nil =>
              obtain ⟨_, rfl⟩ := List.append_eq_nil_iff.mp hds
              obtain ⟨⟩ := herr₂
          | cons d more' =>
              have hcons : done ++ d :: (more' ++ (more ++ [t])) = done ++ g :: rest := by
                rw [← hg, ← List.cons_append, ← hds]
                simp
              rw [(List.cons.inj (List.append_cancel_left hcons)).1]
              exact List.mem_cons_self
        refine absurd (hpre g ?_) hover
        rw [List.append_assoc]
        exact List.mem_append_right _ hmem

end Runs

/-! ## The limit -/

variable (json : SerdeJson) (mode : SseRestorationMode) (restore : Str → StateM σ Str) (st : σ)
  (chunks : List (List UInt8))

/-- The first frame over the limit, if there is one, is cut so that it is seen, or else a frame
before it fails. -/
def OversizeSeen : Prop :=
  ∀ {fs t pre f rest}, Frames chunks.flatten fs t → fs ++ [t] = pre ++ f :: rest →
    (∀ g ∈ pre, WithinLimit g) → ¬WithinLimit f →
    CutWithin chunks pre f rest ∨ ∃ e st', transformAll json mode restore pre st = (.error e, st')

/-- The limit holds for exactly those ways of cutting a stream that let its first frame over the
limit be seen while it is incomplete. -/
theorem limitHolds_iff :
    LimitHolds json mode restore st chunks ↔ OversizeSeen json mode restore st chunks := by
  constructor
  · intro h fs t pre f rest hs hsplit hpre hf
    rcases h.oversize hs hsplit hf with href | ⟨e, st', _, herr, _⟩
    · exact .inl (href.cut hs hsplit hpre hf)
    · exact .inr ⟨e, st', herr⟩
  · intro h
    constructor
    · intro fs t pre f rest hs hsplit hf
      obtain ⟨pre', f', rest', hsplit', ⟨more, rfl⟩, hpre', hf'⟩ := @exists_first pre rest f hf
      have hfirst := hsplit.trans hsplit'
      have failed : ∀ {e st'}, transformAll json mode restore pre' st = (.error e, st') →
          FailsWithin json mode restore st chunks (pre' ++ more) := by
        intro e st' herr
        have hsub : pre' <+: fs := by
          have hlen := congrArg List.length hfirst
          simp only [List.length_append, List.length_cons, List.length_nil] at hlen
          exact List.prefix_of_prefix_length_le ⟨f' :: rest', hfirst.symm⟩ ⟨[t], rfl⟩ (by omega)
        obtain ⟨self, hself⟩ := pushAll_error hs hsub hpre' herr
        exact ⟨e, st', self, transformAll_append_error.mpr (.inl herr), hself⟩
      rcases h hs hfirst hpre' hf' with hcut | ⟨e, st', herr⟩
      · rcases hok : transformAll json mode restore pre' st with ⟨e | outs, st'⟩
        · exact .inr (failed hok)
        · obtain ⟨before, chunk, after, done, kept, hchunks, hdone, hall, href⟩ :=
            hcut.refused hs hfirst hpre' hf' hok
          refine .inl ⟨before, chunk, after, done, kept, hchunks,
            hdone.trans (List.prefix_append _ _), fun hpre => ?_, href⟩
          rw [hall hpre']
          exact (split_unique hsplit' hpre hpre' hf hf').1.symm
      · exact .inr (failed herr)
    · intro fs t hs hwithin
      have hfs : ∀ f ∈ fs, WithinLimit f := fun f hf => hwithin f (List.mem_append_left _ hf)
      rcases hok : transformAll json mode restore fs st with ⟨e | outs, st'⟩
      · exact pushAll_error hs (List.prefix_refl _) hfs hok
      · have hnil : findFrameEnd [] = none := rfl
        exact ⟨_, @pushAll_frames _ json mode _ chunks [] _ _ _ hs hnil hfs
          (hwithin t (by simp)) _ _ hok⟩

/-! ## One chunk -/

/-- A comment of one byte and `n` more, with its empty line. -/
def commentFrame (n : Nat) : List UInt8 := 0x3A :: List.replicate n 0x78 ++ [0x0A, 0x0A]

theorem frames_comment (n : Nat) : Frames (commentFrame n) [commentFrame n] [] := by
  have hline : ∀ n, findFrameEnd (List.replicate n 0x78 ++ [0x0A, 0x0A]) = some (n + 2) := by
    intro n
    induction n with
    | zero => rfl
    | succ n ih =>
        rw [List.replicate_succ, List.cons_append, findFrameEnd, ih]
        rfl
  have hend : findFrameEnd (commentFrame n) = some (commentFrame n).length := by
    unfold commentFrame
    rw [List.cons_append, findFrameEnd, hline]
    simp
  have h := Frames.frame hend (by rw [List.drop_length]; exact .tail rfl)
  rwa [List.take_length] at h

/-- A comment over the limit that comes in one chunk is not refused. -/
theorem not_limitHolds_comment {n : Nat} (hn : maxSseEventBytes < n + 3) (json : SerdeJson)
    (mode : SseRestorationMode) (restore : Str → StateM σ Str) (st : σ) :
    ¬LimitHolds json mode restore st [commentFrame n] := by
  intro h
  have hs : Frames [commentFrame n].flatten [commentFrame n] [] := by
    rw [List.flatten_singleton]
    exact frames_comment n
  have hover : ¬WithinLimit (commentFrame n) := by
    have hlen : (commentFrame n).length = n + 3 := by simp [commentFrame]
    unfold WithinLimit
    omega
  have hsplit : [commentFrame n] ++ [[]] = [] ++ commentFrame n :: [[]] := rfl
  rcases h.oversize hs hsplit hover with href | ⟨_, _, _, ⟨⟩, _⟩
  obtain ⟨before, chunk, after, hchunks, _, _, hend⟩ := href.cut hs hsplit (by simp) hover
  have hone := congrArg List.length hchunks
  rw [List.length_append, List.length_singleton, List.length_cons] at hone
  obtain rfl : before = [] := List.length_eq_zero_iff.mp (by omega)
  obtain ⟨rfl, _⟩ := List.cons.inj hchunks
  have := hend (by simp)
  simp only [List.flatten_nil, List.length_nil] at this
  omega

theorem limitHolds_oneChunk : ¬LimitHolds (.ofTable [] List.nodup_nil) .syntheticDisplayText
    (fun text => (pure text : StateM Unit Str)) () [commentFrame maxSseEventBytes] :=
  not_limitHolds_comment (Nat.lt_add_of_pos_right (Nat.succ_pos 2)) _ _ _ _

end AgentVeil
