import AgentVeil.Rust.Simulation
import AgentVeil.Sse

/-!
# The transformer with another closure

What the transformer writes depends on the closure only through the texts that it returns.
-/

namespace AgentVeil

open Rust

variable {σ τ : Type} {Q : σ → τ → Prop} {restore : Str → StateM σ Str} {restore' : Str → StateM τ Str}

/-- The two closures return the same texts. -/
abbrev SameTexts (Q : σ → τ → Prop) (restore : Str → StateM σ Str) (restore' : Str → StateM τ Str) :
    Prop :=
  ∀ text, Simulates Q (restore text) (restore' text)

section Event

variable (h : SameTexts Q restore restore')
include h

theorem simulates_stringField (name : String) (value : Value) : Effect.Simulates Q
    (restoreStringField restore name value) (restoreStringField restore' name value) := by
  unfold restoreStringField
  cases value.child? (.key name.toList) with
  | none => exact .pure _
  | some current =>
      apply (Effect.Simulates.okOr _ _).bind
      intro text
      exact (Effect.Simulates.lift (h text)).bind fun _ => .pure _

theorem simulates_outputTextPart (part : Value) : Effect.Simulates Q
    (restoreOutputTextPart restore part) (restoreOutputTextPart restore' part) :=
  .ite (simulates_stringField h "text" part) (.pure _)

omit h in
theorem simulates_items {f : Value → Effect σ SseError Value} {f' : Value → Effect τ SseError Value}
    (hf : ∀ item, Effect.Simulates Q (f item) (f' item)) (items : List Value) :
    Effect.Simulates Q (restoreItems f items) (restoreItems f' items) := by
  induction items with
  | nil => exact .pure _
  | cons item items ih => exact (hf item).bind fun _ => ih.bind fun _ => .pure _

omit h in
theorem simulates_arrayField {f : Value → Effect σ SseError Value}
    {f' : Value → Effect τ SseError Value} (hf : ∀ item, Effect.Simulates Q (f item) (f' item))
    (name : String) (value : Value) :
    Effect.Simulates Q (restoreArrayField f name value) (restoreArrayField f' name value) := by
  unfold restoreArrayField
  cases value.child? (.key name.toList) with
  | none => exact .pure _
  | some current =>
      apply (Effect.Simulates.okOr _ _).bind
      intro items
      exact (simulates_items hf items).bind fun _ => .pure _

theorem simulates_messageItem (item : Value) : Effect.Simulates Q
    (restoreMessageItem restore item) (restoreMessageItem restore' item) :=
  .ite (.pure _) (simulates_arrayField (simulates_outputTextPart h) "content" item)

omit h in
theorem simulates_child {f : Value → Effect σ SseError Value} {f' : Value → Effect τ SseError Value}
    (hf : ∀ child, Effect.Simulates Q (f child) (f' child)) (name : String) (event : Value) :
    Effect.Simulates Q (restoreChild f name event) (restoreChild f' name event) := by
  unfold restoreChild
  cases event.child? (.key name.toList) with
  | none => exact .pure _
  | some child => exact (hf child).bind fun _ => .pure _

theorem simulates_event (eventType : Str) (event : Value) : Effect.Simulates Q
    (restoreEvent restore eventType event) (restoreEvent restore' eventType event) := by
  unfold restoreEvent
  apply Effect.Simulates.ite (simulates_stringField h _ _)
  apply Effect.Simulates.ite (simulates_stringField h _ _)
  apply Effect.Simulates.ite (simulates_child (simulates_outputTextPart h) _ _)
  apply Effect.Simulates.ite (simulates_child (simulates_messageItem h) _ _)
  apply Effect.Simulates.ite
  · exact simulates_child (simulates_arrayField (simulates_messageItem h) _) _ _
  · exact .pure _

end Event

/-! ## Frames and chunks -/

section Stream

variable (json : SerdeJson) (mode : SseRestorationMode) (h : SameTexts Q restore restore')
include h

theorem simulates_transformFrame (frame : List UInt8) : Effect.Simulates Q
    (transformFrame json mode restore frame) (transformFrame json mode restore' frame) := by
  unfold transformFrame
  apply (Effect.Simulates.okOr _ _).bind
  intro text
  apply (Effect.Simulates.ofExcept _).bind
  rintro ⟨header, dataLine⟩
  cases dataLine with
  | none => exact .pure _
  | some line =>
      apply (Effect.Simulates.okOr _ _).bind
      intro data
      apply Effect.Simulates.ite (.pure _)
      apply (Effect.Simulates.okOr _ _).bind
      intro event
      apply (Effect.Simulates.okOr _ _).bind
      intro eventType
      apply Effect.Simulates.ite (.throw _)
      apply Effect.Simulates.ite (.pure _)
      apply (simulates_event h eventType event).bind
      intro event
      exact (Effect.Simulates.okOr _ _).bind fun _ => .pure _

/-- The frames that are drained and the buffer that stays. -/
theorem drainFrames_simulates (rounds : Nat) (buffer : List UInt8) {s : σ} {t : τ} (hst : Q s t) :
    (drainFrames json mode restore rounds buffer s).1 = (drainFrames json mode restore' rounds buffer t).1 ∧
    (drainFrames json mode restore rounds buffer s).2.1
      = (drainFrames json mode restore' rounds buffer t).2.1 ∧
    Q (drainFrames json mode restore rounds buffer s).2.2
      (drainFrames json mode restore' rounds buffer t).2.2 := by
  induction rounds generalizing buffer s t with
  | zero => exact ⟨rfl, rfl, hst⟩
  | succ rounds ih =>
      simp only [drainFrames]
      cases findFrameEnd buffer with
      | none => exact ⟨rfl, rfl, hst⟩
      | some stop =>
          simp only
          obtain ⟨hvalue, hstate⟩ := simulates_transformFrame json mode h (buffer.take stop) s t hst
          generalize transformFrame json mode restore (buffer.take stop) s = r at hvalue hstate ⊢
          generalize transformFrame json mode restore' (buffer.take stop) t = r' at hvalue hstate ⊢
          obtain ⟨value, s'⟩ := r
          obtain ⟨value', t'⟩ := r'
          obtain rfl : value = value' := hvalue
          cases value with
          | error e => exact ⟨rfl, rfl, hstate⟩
          | ok frame =>
              obtain ⟨hframes, hbuffer, hrest⟩ := ih (buffer.drop stop) hstate
              simp only
              generalize drainFrames json mode restore rounds (buffer.drop stop) s' = d
                at hframes hbuffer hrest ⊢
              generalize drainFrames json mode restore' rounds (buffer.drop stop) t' = d'
                at hframes hbuffer hrest ⊢
              obtain ⟨frames, buffer₁, s''⟩ := d
              obtain ⟨frames', buffer₂, t''⟩ := d'
              obtain rfl : frames = frames' := hframes
              obtain rfl : buffer₁ = buffer₂ := hbuffer
              cases frames with
              | error e => exact ⟨rfl, rfl, hrest⟩
              | ok frames => exact ⟨rfl, rfl, hrest⟩

/-- A push returns the same and keeps the same buffer. -/
theorem push_simulates (self : SseTransformer) (chunk : List UInt8) {s : σ} {t : τ} (hst : Q s t) :
    (self.push json restore chunk s).1 = (self.push json restore' chunk t).1 ∧
    (self.push json restore chunk s).2.1 = (self.push json restore' chunk t).2.1 ∧
    Q (self.push json restore chunk s).2.2 (self.push json restore' chunk t).2.2 := by
  unfold SseTransformer.push
  simp only
  split
  · exact ⟨rfl, rfl, hst⟩
  · obtain ⟨hframes, hbuffer, hrest⟩ := drainFrames_simulates json self.restorationMode h
      (self.buffer ++ chunk).length (self.buffer ++ chunk) hst
    exact ⟨hframes, congrArg (SseTransformer.mk · self.restorationMode) hbuffer, hrest⟩

end Stream

end AgentVeil
