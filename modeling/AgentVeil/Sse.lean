import AgentVeil.Rust.Collections
import AgentVeil.Rust.Json
import AgentVeil.Rust.Utf8

/-!
# The SSE transformer

The framing and the restoration of `sse.rs`. The closure that restores a text may read and write a
state, which every call hands on.
-/

namespace AgentVeil

open Rust
open Rust.Value (asStr asArray)

def maxSseEventBytes : Nat := 1024 * 1024

inductive SseRestorationMode where
  | syntheticDisplayText | syntheticDisplayDeltaOnly
  deriving DecidableEq, Repr

inductive SseError where
  | oversizeEvent
  | invalidUtf8
  | multipleDataLines
  | missingData
  | invalidJson
  | missingEventType
  | mismatchedEventType
  | invalidTextShape
  | serialize
  | truncatedEvent
  deriving DecidableEq, Repr

structure SseTransformer where
  buffer : List UInt8
  restorationMode : SseRestorationMode
  deriving DecidableEq

def SseTransformer.new (restorationMode : SseRestorationMode) : SseTransformer :=
  ⟨[], restorationMode⟩

/-- Just past the first empty line. -/
def findFrameEnd : List UInt8 → Option Nat
  | [] => none
  | b :: bs =>
      if [0x0A, 0x0A].isPrefixOf (b :: bs) then some 2
      else if [0x0D, 0x0A, 0x0D, 0x0A].isPrefixOf (b :: bs) then some 4
      else (findFrameEnd bs).map (· + 1)

/-! ## Restoration -/

section Restoration

variable {σ : Type}

def restoreStringField (restore : Str → StateM σ Str) (field : String) (value : Value) :
    Effect σ SseError Value :=
  match value.child? (.key field.toList) with
  | none => pure value
  | some current => do
      let text ← Effect.okOr current.asStr .invalidTextShape
      let restored ← restore text
      pure (value.putChild (.key field.toList) (.string restored))

def getType (value : Value) : Option Str := (value.child? (.key "type".toList)).bind asStr

def restoreOutputTextPart (restore : Str → StateM σ Str) (part : Value) : Effect σ SseError Value :=
  if getType part = some "output_text".toList then restoreStringField restore "text" part else pure part

/-- One `for` loop over the items of an array. -/
def restoreItems (f : Value → Effect σ SseError Value) : List Value → Effect σ SseError (List Value)
  | [] => pure []
  | item :: items => do
      let item ← f item
      let items ← restoreItems f items
      pure (item :: items)

def restoreArrayField (f : Value → Effect σ SseError Value) (field : String) (value : Value) :
    Effect σ SseError Value :=
  match value.child? (.key field.toList) with
  | none => pure value
  | some current => do
      let items ← Effect.okOr current.asArray .invalidTextShape
      let items ← restoreItems f items
      pure (value.putChild (.key field.toList) (.array items))

def restoreMessageItem (restore : Str → StateM σ Str) (item : Value) : Effect σ SseError Value :=
  if getType item ≠ some "message".toList then pure item
  else restoreArrayField (restoreOutputTextPart restore) "content" item

def restoreResponseSnapshot (restore : Str → StateM σ Str) (response : Value) :
    Effect σ SseError Value :=
  restoreArrayField (restoreMessageItem restore) "output" response

/-- `if let Some(child) = event.get_mut(field)`. -/
def restoreChild (f : Value → Effect σ SseError Value) (field : String) (event : Value) :
    Effect σ SseError Value :=
  match event.child? (.key field.toList) with
  | none => pure event
  | some child => do
      let child ← f child
      pure (event.putChild (.key field.toList) child)

def deltaEvent : Str := "response.output_text.delta".toList
def doneEvent : Str := "response.output_text.done".toList
def contentPartEvents : List Str :=
  ["response.content_part.added", "response.content_part.done"].map String.toList
def outputItemEvents : List Str :=
  ["response.output_item.added", "response.output_item.done"].map String.toList
def responseEvents : List Str :=
  ["response.created", "response.in_progress", "response.completed"].map String.toList

def restoreEvent (restore : Str → StateM σ Str) (eventType : Str) (event : Value) :
    Effect σ SseError Value :=
  if eventType = deltaEvent then restoreStringField restore "delta" event
  else if eventType = doneEvent then restoreStringField restore "text" event
  else if eventType ∈ contentPartEvents then restoreChild (restoreOutputTextPart restore) "part" event
  else if eventType ∈ outputItemEvents then restoreChild (restoreMessageItem restore) "item" event
  else if eventType ∈ responseEvents then
    restoreChild (restoreResponseSnapshot restore) "response" event
  else pure event

def isRestorableEvent (restorationMode : SseRestorationMode) (eventType : Str) : Bool :=
  match restorationMode with
  | .syntheticDisplayDeltaOnly => eventType = deltaEvent
  | .syntheticDisplayText => eventType ∈ deltaEvent :: doneEvent ::
      (contentPartEvents ++ outputItemEvents ++ responseEvents)

/-! ## Frames -/

def isLineEnd (c : Char) : Bool := c = '\r' || c = '\n'

/-- A data line of a frame: where it starts and stops, and its text. -/
structure DataLine where
  start : Nat
  stop : Nat
  line : Str

/-- The loop over the lines: the last event header and the only data line. -/
def scanLines : List Str → Nat → Option Str → Option DataLine →
    Except SseError (Option Str × Option DataLine)
  | [], _, eventTypeHeader, dataLine => .ok (eventTypeHeader, dataLine)
  | line :: lines, offset, eventTypeHeader, dataLine =>
      let content := trimEndMatches isLineEnd line
      let eventTypeHeader :=
        match stripPrefix "event:".toList content with
        | some value => some (trim value)
        | none => eventTypeHeader
      if "data:".toList.isPrefixOf content then
        if dataLine.isSome then .error .multipleDataLines
        else scanLines lines (offset + len line) eventTypeHeader
          (some ⟨offset, offset + len line, line⟩)
      else scanLines lines (offset + len line) eventTypeHeader dataLine

def transformFrame (json : SerdeJson) (restorationMode : SseRestorationMode)
    (restore : Str → StateM σ Str) (frame : List UInt8) : Effect σ SseError (List UInt8) := do
  let text ← Effect.okOr (fromUtf8 frame) .invalidUtf8
  let (eventTypeHeader, dataLine) ← Effect.ofExcept (scanLines (splitInclusive text) 0 none none)
  match dataLine with
  | none => pure frame
  | some ⟨start, stop, originalLine⟩ =>
      let lineWithoutNewline := trimEndMatches isLineEnd originalLine
      let newline := originalLine.drop lineWithoutNewline.length
      let data ← Effect.okOr (stripPrefix "data:".toList lineWithoutNewline) .missingData
      let data := trimStart data
      if data = "[DONE]".toList then pure frame
      else do
        let event ← Effect.okOr (json.fromStr (bytes data)) .invalidJson
        let eventType ← Effect.okOr (getType event) .missingEventType
        if eventTypeHeader.any (· ≠ eventType) then throw .mismatchedEventType
        else if !isRestorableEvent restorationMode eventType then pure frame
        else do
          let event ← restoreEvent restore eventType event
          let serialized ← Effect.okOr (json.toVec event) .serialize
          pure (frame.take start ++ bytes "data: ".toList ++ serialized ++ bytes newline
            ++ frame.drop stop)

/-! ## The stream -/

/-- The loop of `push` on a buffer: the frames or the error, and what stays in the buffer. Every
frame shortens the buffer, so its length bounds the rounds. -/
def drainFrames (json : SerdeJson) (restorationMode : SseRestorationMode)
    (restore : Str → StateM σ Str) :
    Nat → List UInt8 → σ → Except SseError (List (List UInt8)) × List UInt8 × σ
  | 0, buffer, st => (.ok [], buffer, st)
  | rounds + 1, buffer, st =>
      match findFrameEnd buffer with
      | none => (.ok [], buffer, st)
      | some stop =>
          match transformFrame json restorationMode restore (buffer.take stop) st with
          | (.error e, st) => (.error e, buffer.drop stop, st)
          | (.ok frame, st) =>
              match drainFrames json restorationMode restore rounds (buffer.drop stop) st with
              | (.error e, rest) => (.error e, rest)
              | (.ok frames, rest) => (.ok (frame :: frames), rest)

def SseTransformer.push (json : SerdeJson) (restore : Str → StateM σ Str) (self : SseTransformer)
    (chunk : List UInt8) (st : σ) : Except SseError (List (List UInt8)) × SseTransformer × σ :=
  let buffer := self.buffer ++ chunk
  if maxSseEventBytes < buffer.length ∧ findFrameEnd buffer = none then
    (.error .oversizeEvent, { self with buffer := buffer }, st)
  else
    let (frames, buffer, st) :=
      drainFrames json self.restorationMode restore buffer.length buffer st
    (frames, { self with buffer := buffer }, st)

end Restoration

/-- `u8::is_ascii_whitespace`. -/
def isAsciiWhitespace (b : UInt8) : Bool :=
  b = 0x09 || b = 0x0A || b = 0x0C || b = 0x0D || b = 0x20

def SseTransformer.finish (self : SseTransformer) : Except SseError Unit :=
  ensure (self.buffer.all isAsciiWhitespace = true) .truncatedEvent

end AgentVeil
