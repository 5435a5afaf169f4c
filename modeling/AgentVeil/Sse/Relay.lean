import AgentVeil.Sse.Limit

/-!
# Frames that fail

The stream of `relay_upstream` ends with the first push that fails and yields nothing of that push,
not even the frames before the one that fails. So a client gets all the good frames only when no
good frame comes to its end in the chunk that ends the bad one.
-/

namespace AgentVeil

open Rust

variable {σ : Type}

/-- The loop of `relay_upstream` over the chunks: the frames it yields, and the error it ends with. -/
def relayFrames (json : SerdeJson) (restore : Str → StateM σ Str) :
    SseTransformer → List (List UInt8) → σ → List (List UInt8) × Option SseError
  | self, [], _ =>
      match self.finish with
      | .error e => ([], some e)
      | .ok () => ([], none)
  | self, chunk :: chunks, st =>
      match self.push json restore chunk st with
      | (.error e, _) => ([], some e)
      | (.ok frames, self, st) =>
          let (more, error) := relayFrames json restore self chunks st
          (frames ++ more, error)

/-! ## Errors of a frame -/

section Errors

variable {restore : Str → StateM σ Str}

/-- The errors of a frame are about its text. -/
def SseError.ofFrame (e : SseError) : Prop := e ≠ .oversizeEvent ∧ e ≠ .truncatedEvent

abbrev FrameErrors {α : Type} (x : Effect σ SseError α) : Prop := Effect.Raises SseError.ofFrame x

theorem frameErrors_stringField (field : String) (value : Value) :
    FrameErrors (restoreStringField restore field value) := by
  unfold restoreStringField
  cases value.child? (.key field.toList) with
  | none => exact .pure _
  | some current =>
      refine .bind (.okOr ⟨nofun, nofun⟩) ?_
      intro text
      exact .bind (.lift _) fun _ => .pure _

theorem frameErrors_outputTextPart (part : Value) :
    FrameErrors (restoreOutputTextPart restore part) := by
  unfold restoreOutputTextPart
  split
  · exact frameErrors_stringField _ _
  · exact .pure _

theorem frameErrors_items {f : Value → Effect σ SseError Value} (hf : ∀ item, FrameErrors (f item))
    (items : List Value) : FrameErrors (restoreItems f items) := by
  induction items with
  | nil => exact .pure _
  | cons item items ih => exact (hf item).bind fun _ => ih.bind fun _ => .pure _

theorem frameErrors_arrayField {f : Value → Effect σ SseError Value}
    (hf : ∀ item, FrameErrors (f item)) (field : String) (value : Value) :
    FrameErrors (restoreArrayField f field value) := by
  unfold restoreArrayField
  cases value.child? (.key field.toList) with
  | none => exact .pure _
  | some current =>
      refine .bind (.okOr ⟨nofun, nofun⟩) ?_
      intro items
      exact (frameErrors_items hf items).bind fun _ => .pure _

theorem frameErrors_messageItem (item : Value) : FrameErrors (restoreMessageItem restore item) := by
  unfold restoreMessageItem
  split
  · exact .pure _
  · exact frameErrors_arrayField frameErrors_outputTextPart _ _

theorem frameErrors_child {f : Value → Effect σ SseError Value} (hf : ∀ child, FrameErrors (f child))
    (field : String) (event : Value) : FrameErrors (restoreChild f field event) := by
  unfold restoreChild
  cases event.child? (.key field.toList) with
  | none => exact .pure _
  | some child => exact (hf child).bind fun _ => .pure _

theorem frameErrors_event (eventType : Str) (event : Value) :
    FrameErrors (restoreEvent restore eventType event) := by
  unfold restoreEvent
  split
  · exact frameErrors_stringField _ _
  split
  · exact frameErrors_stringField _ _
  split
  · exact frameErrors_child frameErrors_outputTextPart _ _
  split
  · exact frameErrors_child frameErrors_messageItem _ _
  split
  · exact frameErrors_child (frameErrors_arrayField frameErrors_messageItem _) _ _
  · exact .pure _

theorem frameErrors_scanLines (lines : List Str) (offset : Nat) (eventType : Option Str)
    (dataLine : Option DataLine) :
    FrameErrors (Effect.ofExcept (scanLines lines offset eventType dataLine) : Effect σ _ _) := by
  apply Effect.Raises.ofExcept
  induction lines generalizing offset eventType dataLine with
  | nil => exact raises_ok
  | cons line lines ih =>
      simp only [scanLines]
      split
      · split
        · exact raises_error ⟨nofun, nofun⟩
        · exact ih _ _ _
      · exact ih _ _ _

theorem frameErrors_transformFrame (json : SerdeJson) (mode : SseRestorationMode)
    (frame : List UInt8) : FrameErrors (transformFrame json mode restore frame) := by
  unfold transformFrame
  refine .bind (.okOr ⟨nofun, nofun⟩) ?_
  intro text
  apply (frameErrors_scanLines _ _ _ _).bind
  rintro ⟨header, dataLine⟩
  cases dataLine with
  | none => exact .pure _
  | some line =>
      refine .bind (.okOr ⟨nofun, nofun⟩) ?_
      intro data
      dsimp only
      split
      · exact .pure _
      · refine .bind (.okOr ⟨nofun, nofun⟩) ?_
        intro event
        refine .bind (.okOr ⟨nofun, nofun⟩) ?_
        intro eventType
        split
        · exact .throw ⟨nofun, nofun⟩
        split
        · exact .pure _
        · apply (frameErrors_event _ _).bind
          intro event
          exact .bind (.okOr ⟨nofun, nofun⟩) fun _ => .pure _

end Errors

/-! ## Runs -/

section Runs

variable {json : SerdeJson} {mode : SseRestorationMode} {restore : Str → StateM σ Str} {st : σ}

/-- The frames of accepted chunks are yielded, and the stream goes on. -/
theorem relayFrames_append {self self' : SseTransformer} {before outs : List (List UInt8)} {st' : σ}
    (h : pushAll json restore self before st = (.ok outs, self', st'))
    (rest : List (List UInt8)) : relayFrames json restore self (before ++ rest) st =
      (outs ++ (relayFrames json restore self' rest st').1,
        (relayFrames json restore self' rest st').2) := by
  induction before generalizing self outs st with
  | nil =>
      cases h
      rfl
  | cons chunk before ih =>
      simp only [pushAll] at h
      rcases hpush : self.push json restore chunk st with ⟨e | frames, self₁, st₁⟩
      · rw [hpush] at h
        cases h
      · rw [hpush] at h
        simp only at h
        rcases hrest : pushAll json restore self₁ before st₁ with ⟨e | more, self₂, st₂⟩
        · rw [hrest] at h
          cases h
        · rw [hrest] at h
          cases h
          simp only [List.cons_append, relayFrames, hpush, ih hrest, List.append_assoc]

/-- The first push that fails ends the stream, and what it had transformed is gone. -/
theorem relayFrames_refused {self self' self'' : SseTransformer} {before outs : List (List UInt8)}
    {chunk : List UInt8} {e : SseError} {st' st'' : σ}
    (h : pushAll json restore self before st = (.ok outs, self', st'))
    (hpush : self'.push json restore chunk st' = (.error e, self'', st''))
    (after : List (List UInt8)) :
    relayFrames json restore self (before ++ chunk :: after) st = (outs, some e) := by
  rw [relayFrames_append h]
  simp only [relayFrames, hpush, List.append_nil]

/-- The chunks are accepted, or there is a first one that is not. -/
theorem pushAll_cases (json : SerdeJson) (restore : Str → StateM σ Str) (self : SseTransformer)
    (chunks : List (List UInt8)) (st : σ) :
    (∃ outs self' st', pushAll json restore self chunks st = (.ok outs, self', st')) ∨
    ∃ before chunk after outs self' st' e self'' st'', chunks = before ++ chunk :: after ∧
      pushAll json restore self before st = (.ok outs, self', st') ∧
      self'.push json restore chunk st' = (.error e, self'', st'') := by
  induction chunks using List.reverseRecOn with
  | nil => exact .inl ⟨[], self, st, rfl⟩
  | append_singleton chunks chunk ih =>
      rcases ih with ⟨outs, self', st', hok⟩ | ⟨before, c, after, outs, self', st', e, self'', st'',
        rfl, hok, hpush⟩
      · rcases hpush : self'.push json restore chunk st' with ⟨e | more, self'', st''⟩
        · exact .inr ⟨chunks, chunk, [], outs, self', st', e, self'', st'', rfl, hok, hpush⟩
        · refine .inl ⟨outs ++ more, self'', st'', ?_⟩
          rw [pushAll_concat, hok]
          simp only [hpush]
      · exact .inr ⟨before, c, after ++ [chunk], outs, self', st', e, self'', st'', by simp, hok, hpush⟩

/-- Chunks that are accepted are so one after another. -/
theorem pushAll_append_ok {self self'' : SseTransformer} {before after outs : List (List UInt8)}
    {st'' : σ} (h : pushAll json restore self (before ++ after) st = (.ok outs, self'', st'')) :
    ∃ outs₁ self' st', pushAll json restore self before st = (.ok outs₁, self', st') := by
  induction after using List.reverseRecOn generalizing outs self'' st'' with
  | nil => exact ⟨outs, self'', st'', by rwa [List.append_nil] at h⟩
  | append_singleton after chunk ih =>
      rw [← List.append_assoc, pushAll_concat] at h
      rcases hall : pushAll json restore self (before ++ after) st with ⟨e | outs₁, self₁, st₁⟩
      · rw [hall] at h
        cases h
      · exact ih hall

end Runs

/-! ## Good frames before a bad one -/

section Isolation

variable (json : SerdeJson) (mode : SseRestorationMode) (restore : Str → StateM σ Str) (st : σ)
  (chunks : List (List UInt8))

/-- The client receives the frames before the one that fails, and then its error. -/
def FailureIsolated : Prop :=
  ∀ {fs t pre f rest outs e st' st''}, Frames chunks.flatten fs t → fs = pre ++ f :: rest →
    transformAll json mode restore pre st = (.ok outs, st') →
    transformFrame json mode restore f st' = (.error e, st'') →
    relayFrames json restore (.new mode) chunks st = (outs, some e)

/-- The chunk that brings the end of the frame after `pre` brings the end of no frame of `pre`. -/
def EndsApart (chunks pre : List (List UInt8)) (f : List UInt8) : Prop :=
  ∃ before chunk after, chunks = before ++ chunk :: after ∧
    pre.flatten.length ≤ before.flatten.length ∧
    before.flatten.length < pre.flatten.length + f.length ∧
    pre.flatten.length + f.length ≤ before.flatten.length + chunk.length

/-- No frame of `pre`, nor the next one, is cut so that it is refused while it is incomplete. -/
def Uncut (chunks fs : List (List UInt8)) (t : List UInt8) (pre : List (List UInt8)) : Prop :=
  ∀ {p g more}, fs ++ [t] = p ++ g :: more → p <+: pre → ¬CutWithin chunks p g more

/-- The frame that fails ends in a chunk that ends no good frame before it, and neither is over the
limit in a way that is seen. -/
def FailureApart : Prop :=
  ∀ {fs t pre f rest outs e st' st''}, Frames chunks.flatten fs t → fs = pre ++ f :: rest →
    transformAll json mode restore pre st = (.ok outs, st') →
    transformFrame json mode restore f st' = (.error e, st'') →
    EndsApart chunks pre f ∧ Uncut chunks fs t pre

end Isolation

section Isolation

variable {json : SerdeJson} {mode : SseRestorationMode} {restore : Str → StateM σ Str} {st st' st'' : σ}
  {chunks fs pre rest outs : List (List UInt8)} {t f : List UInt8} {e : SseError}

/-- A part of the stream that reaches the end of a frame completes it. -/
theorem Frames.reaches {w s t' : List UInt8} {fs' : List (List UInt8)} (hw : Frames w fs t)
    (h : Frames (w ++ s) fs' t') (hsplit : fs' = pre ++ f :: rest)
    (hlen : pre.flatten.length + f.length ≤ w.length) : pre ++ [f] <+: fs := by
  obtain ⟨fs₂, t₂, h₂⟩ := exists_frames (t ++ s)
  obtain ⟨rfl, rfl⟩ := h.unique (hw.append h₂)
  obtain ⟨g, more, hg, _, hlt⟩ := h₂.starts hw.rest
  have hw' := congrArg List.length hw.flatten
  rw [List.length_append] at hw'
  have hnext : ∀ {as : List (List UInt8)} {a : List UInt8}, fs₂ = a :: as → t.length < a.length := by
    rintro as a rfl
    obtain ⟨rfl, rfl⟩ := List.cons.inj hg
    exact hlt (by simp)
  rcases List.append_eq_append_iff.mp hsplit with ⟨as, rfl, hrest⟩ | ⟨as, rfl, hrest⟩
  · cases as with
    | nil =>
        have := hnext hrest
        rw [List.append_nil] at hlen
        omega
    | cons a as =>
        have := hnext hrest
        simp only [List.flatten_append, List.flatten_cons, List.length_append] at hlen
        omega
  · cases as with
    | nil =>
        have := hnext hrest.symm
        rw [List.append_nil] at hw'
        omega
    | cons a as =>
        obtain ⟨rfl, _⟩ := List.cons.inj hrest
        exact ⟨as, by simp⟩

theorem relayFrames_failed (hs : Frames chunks.flatten fs t) (hsplit : fs = pre ++ f :: rest)
    (hok : transformAll json mode restore pre st = (.ok outs, st'))
    (herr : transformFrame json mode restore f st' = (.error e, st''))
    (hend : EndsApart chunks pre f) (huncut : Uncut chunks fs t pre) :
    relayFrames json restore (.new mode) chunks st = (outs, some e) := by
  obtain ⟨before, chunk, after, rfl, hstart, hlt, hle⟩ := hend
  obtain ⟨fs₁, t₁, h₁⟩ := exists_frames before.flatten
  obtain ⟨fs₂, t₂, h₂⟩ := exists_frames (t₁ ++ chunk)
  have hs' : Frames (before.flatten ++ chunk ++ after.flatten) fs t := by simpa using hs
  have hs₁ := hs'
  rw [List.append_assoc] at hs₁
  have hall : fs ++ [t] = pre ++ f :: (rest ++ [t]) := by simp [hsplit]
  obtain rfl : fs₁ = pre := h₁.complete hs₁ hall hstart fun _ => hlt
  obtain ⟨more, hmore⟩ : ∃ more, fs₂ = f :: more := by
    obtain ⟨more, hmore⟩ := (h₁.append h₂).reaches hs' hsplit (by rwa [List.length_append])
    exact ⟨more, (List.append_cancel_left (hmore.symm.trans (List.append_assoc ..))).trans rfl⟩
  subst hmore
  rcases pushAll_or_refused h₁ hok with hall | ⟨b, c, a, done, kept, rfl, hdone, href⟩
  · obtain ⟨kept, _, hpush⟩ := push_error h₂ (transformAll_cons_error.mpr (.inl herr))
    exact relayFrames_refused hall hpush after
  · -- What is refused would be one of the frames up to `f`.
    obtain ⟨g, more', hg, hsize, _, hshort⟩ := href.next (a ++ chunk :: after) (by simpa using hs)
    have hkept := congrArg List.length href.frames.flatten
    rw [List.length_append] at hkept
    refine absurd ⟨b, c, a ++ chunk :: after, by simp, by omega, by omega, fun h => ?_⟩
      (huncut hg hdone)
    have := hshort h
    omega

/-- A stream with a frame that fails is not accepted as a whole. -/
theorem not_pushAll_ok (hs : Frames chunks.flatten fs t) (hsplit : fs = pre ++ f :: rest)
    (hok : transformAll json mode restore pre st = (.ok outs, st'))
    (herr : transformFrame json mode restore f st' = (.error e, st'')) {outs' : List (List UInt8)}
    {self : SseTransformer} {st₁ : σ} :
    ¬pushAll json restore (.new mode) chunks st = (.ok outs', self, st₁) := by
  intro hall
  obtain ⟨fs₁, t₁, h₁, hok₁, _⟩ := pushAll_ok hall
  obtain ⟨rfl, rfl⟩ := h₁.unique hs
  rw [hsplit, transformAll_append_error.mpr
    (.inr ⟨outs, st', hok, transformAll_cons_error.mpr (.inl herr)⟩)] at hok₁
  cases hok₁

/-- Where a chunk stands in the stream, given the length of what is before it. -/
theorem splits_apart {before before' after after' : List (List UInt8)} {chunk chunk' : List UInt8}
    (h : before ++ chunk :: after = before' ++ chunk' :: after')
    (hlt : before'.flatten.length + chunk'.length < before.flatten.length + chunk.length) :
    ∃ more, before = before' ++ chunk' :: more := by
  rcases List.append_eq_append_iff.mp h with ⟨as, rfl, has⟩ | ⟨as, rfl, has⟩
  · exfalso
    cases as with
    | nil =>
        obtain ⟨rfl, _⟩ := List.cons.inj has
        simp at hlt
    | cons a as =>
        obtain ⟨rfl, _⟩ := List.cons.inj has
        simp only [List.flatten_append, List.flatten_cons, List.length_append] at hlt
        omega
  · cases as with
    | nil =>
        obtain ⟨rfl, _⟩ := List.cons.inj has
        simp at hlt
    | cons a as =>
        obtain ⟨rfl, _⟩ := List.cons.inj has
        exact ⟨as, rfl⟩

/-- Chunks that are accepted cut no frame so that it would be refused. -/
theorem not_cutWithin {before s : List (List UInt8)} {p more outs' : List (List UInt8)} {g : List UInt8}
    {self : SseTransformer} {st₁ : σ} (hs : Frames (before ++ s).flatten fs t)
    (hsplit : fs ++ [t] = p ++ g :: more)
    (hall : pushAll json restore (.new mode) before st = (.ok outs', self, st₁)) :
    ¬∃ b c a, before = b ++ c :: a ∧ p.flatten.length ≤ b.flatten.length ∧
      p.flatten.length + maxSseEventBytes < b.flatten.length + c.length ∧
      b.flatten.length + c.length < p.flatten.length + g.length := by
  rintro ⟨b, c, a, rfl, hstart, hsize, hshort⟩
  rw [List.append_cons] at hall
  obtain ⟨outs₂, self₂, st₂, hc⟩ := pushAll_append_ok hall
  obtain ⟨outs₁, self₁, st₁, hb⟩ := pushAll_append_ok hc
  obtain ⟨fs₁, t₁, h₁, _, rfl⟩ := pushAll_ok hb
  obtain ⟨fs₂, t₂, h₂⟩ := exists_frames (t₁ ++ c)
  have hs₁ : Frames (b.flatten ++ (c ++ (a ++ s).flatten)) fs t := by simpa using hs
  have hs₂ : Frames (b.flatten ++ c ++ (a ++ s).flatten) fs t := by simpa using hs
  obtain rfl : fs₁ = p := h₁.complete hs₁ hsplit hstart fun _ => by omega
  have hsame := (h₁.append h₂).complete hs₂ hsplit (by rw [List.length_append]; omega)
    fun _ => by rwa [List.length_append]
  obtain rfl : fs₂ = [] := by simpa using hsame
  have hnone := h₂.rest
  rw [← show t₁ ++ c = t₂ from h₂.flatten.symm] at hnone
  have hlen := congrArg List.length h₁.flatten
  rw [List.length_append] at hlen
  rw [pushAll_concat, hb] at hc
  simp only at hc
  rw [push_refused_iff.mpr ⟨hnone, by rw [List.length_append]; omega⟩] at hc
  cases hc

/-- Where the stream gives all the good frames and then the error, no good frame ends in the chunk
that ends the bad one. -/
theorem relayFrames_apart (hs : Frames chunks.flatten fs t) (hsplit : fs = pre ++ f :: rest)
    (hok : transformAll json mode restore pre st = (.ok outs, st'))
    (herr : transformFrame json mode restore f st' = (.error e, st''))
    (hrelay : relayFrames json restore (.new mode) chunks st = (outs, some e)) :
    EndsApart chunks pre f ∧ Uncut chunks fs t pre := by
  rcases pushAll_cases json restore (.new mode) chunks st with
    ⟨outs₁, self, st₁, hall⟩ | ⟨before, chunk, after, outs₁, self₁, st₁, e₁, self, st₂, rfl, hall, hpush⟩
  · exact absurd hall (not_pushAll_ok hs hsplit hok herr)
  rw [relayFrames_refused hall hpush after] at hrelay
  cases hrelay
  obtain ⟨fs₁, t₁, h₁, hok₁, rfl⟩ := pushAll_ok hall
  obtain ⟨fs₂, t₂, h₂⟩ := exists_frames (t₁ ++ (chunk ++ after.flatten))
  have hs' : Frames (before.flatten ++ (chunk ++ after.flatten)) fs t := by simpa using hs
  obtain ⟨hfs, rfl⟩ := hs'.unique (h₁.append h₂)
  -- As many frames were yielded as are before `f`.
  have hlen : fs₁.length = pre.length := by rw [← length_transformAll hok₁, length_transformAll hok]
  obtain ⟨rfl, rfl⟩ := List.append_inj (hfs.symm.trans hsplit) hlen
  rw [hok₁] at hok
  cases hok
  obtain ⟨g, more, hg, _, hlt⟩ := h₂.starts h₁.rest
  obtain ⟨rfl, rfl⟩ := List.cons.inj hg
  have hshort := hlt (by simp)
  have hbefore := congrArg List.length h₁.flatten
  rw [List.length_append] at hbefore
  have hreach : f.length ≤ t₁.length + chunk.length := by
    by_contra hover
    have hnone : findFrameEnd (t₁ ++ chunk) = none := by
      by_contra hsome
      obtain ⟨n, hn⟩ := Option.ne_none_iff_exists'.mp hsome
      have hend := findFrameEnd_append hn after.flatten
      rw [List.append_assoc] at hend
      cases h₂ with
      | @frame _ m _ _ hm hrest =>
          obtain rfl := Option.some.inj (hend.symm.trans hm)
          have hn' := (findFrameEnd_bounds hn).2
          rw [List.length_take, List.length_append] at *
          omega
    by_cases hsize : maxSseEventBytes < (t₁ ++ chunk).length
    · rw [push_refused_iff.mpr ⟨hnone, hsize⟩] at hpush
      cases hpush
      exact (frameErrors_transformFrame json mode f _ _ _ herr).1 rfl
    · have hempty : transformAll json mode restore [] st' = (.ok [], st') := rfl
      rw [push_frames (.tail hnone) (fun _ => Nat.not_lt.mp hsize) hempty] at hpush
      cases hpush
  refine ⟨⟨before, chunk, after, rfl, by omega, by omega, by omega⟩, ?_⟩
  rintro p g more hp hpre ⟨b, c, a, hsame, hstart, hsize, hend⟩
  have hfirst : p ++ [g] <+: fs₁ ++ [f] := by
    have hp' : p ++ [g] <+: fs ++ [t] := ⟨more, by simp [hp]⟩
    have hf' : fs₁ ++ [f] <+: fs ++ [t] := ⟨rest ++ [t], by simp [hfs]⟩
    exact List.prefix_of_prefix_length_le hp' hf' (by simpa using hpre.length_le)
  obtain ⟨more', hmore'⟩ := hfirst
  have hle := congrArg (fun l : List (List UInt8) => l.flatten.length) hmore'
  simp only [List.flatten_append, List.flatten_singleton, List.length_append] at hle
  have hmore : more ≠ [] := by
    rintro rfl
    have := congrArg List.length hp
    rw [hfs] at this
    have := hpre.length_le
    simp at *
    omega
  have hshort' := hend hmore
  obtain ⟨x, hx⟩ := splits_apart hsame (by omega)
  exact not_cutWithin hs hp hall ⟨b, c, x, hx, hstart, hsize, hshort'⟩

/-- The good frames before a bad one reach the client exactly when none of them ends in the chunk
that ends the bad one and none is seen to be over the limit. -/
theorem failureIsolated_iff : FailureIsolated json mode restore st chunks ↔
    FailureApart json mode restore st chunks := by
  constructor
  · intro h fs t pre f rest outs e st' st'' hs hsplit hok herr
    exact relayFrames_apart hs hsplit hok herr (h hs hsplit hok herr)
  · intro h fs t pre f rest outs e st' st'' hs hsplit hok herr
    obtain ⟨hend, huncut⟩ := h hs hsplit hok herr
    exact relayFrames_failed hs hsplit hok herr hend huncut

/-- A comment and a frame that is not UTF-8, in one chunk. -/
def goodThenBad : List UInt8 := commentFrame 0 ++ [0xFF, 0x0A, 0x0A]

theorem frames_goodThenBad : Frames goodThenBad [commentFrame 0, [0xFF, 0x0A, 0x0A]] [] :=
  .frame (n := 3) rfl (.frame (n := 3) rfl (.tail rfl))

/-- The comment is lost when the two come in one chunk. -/
theorem not_failureIsolated_goodThenBad : ¬FailureIsolated (.ofTable [] List.nodup_nil)
    .syntheticDisplayText (fun text => (pure text : StateM Unit Str)) () [goodThenBad] := by
  intro h
  have hs : Frames [goodThenBad].flatten [commentFrame 0, [0xFF, 0x0A, 0x0A]] [] := by
    rw [List.flatten_singleton]
    exact frames_goodThenBad
  have hrelay := @h _ _ [commentFrame 0] _ [] _ _ _ _ hs rfl rfl rfl
  cases hrelay

end Isolation

end AgentVeil
