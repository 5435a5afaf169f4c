import AgentVeil.Audit
import AgentVeil.Rust.Utf8

/-!
# Records of the audit file

The calls of `AuditSink::write` on one sink, in the order of its lock. A call that fails may leave a
part of its line, and the next line is written right behind it. The serializer is a parameter, whose
output holds no line feed.
-/

namespace AgentVeil

open Rust

/-- A call of `AuditSink::write`, and what becomes of it. -/
structure AuditWrite where
  event : AuditEvent
  fate : WriteFate
  deriving DecidableEq

variable (toVec : AuditEvent → Option (List UInt8))

/-- The file after the calls. -/
def writeAll (file : List UInt8) (writes : List AuditWrite) : List UInt8 :=
  file ++ writes.flatMap fun w => (AuditSink.write toVec w.event w.fate).2

/-- The call returned `Ok`. -/
def AuditWrite.Acknowledged (w : AuditWrite) : Prop :=
  (AuditSink.write toVec w.event w.fate).1 = .ok ()

/-- What is appended to the file starts a line. -/
def LineStart (file : List UInt8) : Prop := ∀ b, file.getLast? = some b → b = 0x0A

/-- Every acknowledged call has the JSON of its event in the file, from where the call put it, as one
whole line: after the start of the file or a line feed, up to the next line feed. -/
def RecordsIntact (file : List UInt8) (writes : List AuditWrite) : Prop :=
  ∀ {before w after}, writes = before ++ w :: after → w.Acknowledged toVec →
    ∃ json rest, toVec w.event = some json ∧ 0x0A ∉ json ∧
      LineStart (writeAll toVec file before) ∧
      writeAll toVec file writes = writeAll toVec file before ++ json ++ 0x0A :: rest

/-- How a call leaves the end of the file: as it was, after a whole line, or inside its line. -/
inductive LineEnd where
  | same | whole | torn
  deriving DecidableEq, Repr

def AuditWrite.lineEnd (w : AuditWrite) : LineEnd :=
  match toVec w.event with
  | none => .same
  | some json =>
      match w.fate with
      | .poisoned => .same
      | .write written =>
          if written = 0 then .same else if written ≤ json.length then .torn else .whole
      | .flush | .sync | .durable => .whole

/-- The file ends inside a line. -/
def endsTorn (file : List UInt8) : Bool := file.getLast?.any (· ≠ 0x0A)

/-- Whether the file ends inside a line after a call, given whether it did before. -/
def LineEnd.tears (torn : Bool) : LineEnd → Bool
  | .same => torn
  | .whole => false
  | .torn => true

def tornAfter (torn : Bool) (writes : List AuditWrite) : Bool :=
  writes.foldl (fun torn w => (w.lineEnd toVec).tears torn) torn

/-- No call is acknowledged that finds a torn line at the end of the file. -/
def TornUnused (file : List UInt8) (writes : List AuditWrite) : Prop :=
  ∀ {before w after}, writes = before ++ w :: after → w.Acknowledged toVec →
    tornAfter toVec (endsTorn file) before = false

variable {toVec} {file : List UInt8} {writes : List AuditWrite}

theorem writeAll_append (before after : List AuditWrite) :
    writeAll toVec file (before ++ after) = writeAll toVec (writeAll toVec file before) after := by
  simp [writeAll]

theorem acknowledged_iff {w : AuditWrite} : w.Acknowledged toVec ↔
    w.fate = .durable ∧ ∃ json, toVec w.event = some json := by
  unfold AuditWrite.Acknowledged AuditSink.write AuditEvent.toJsonLine
  cases toVec w.event with
  | none => simp
  | some json => cases w.fate with
    | _ => simp

/-- An acknowledged call appends the whole line. -/
theorem AuditWrite.Acknowledged.appended {w : AuditWrite} (h : w.Acknowledged toVec) :
    ∃ json, toVec w.event = some json ∧
      (AuditSink.write toVec w.event w.fate).2 = json ++ [0x0A] := by
  obtain ⟨hfate, json, hjson⟩ := acknowledged_iff.mp h
  exact ⟨json, hjson, by simp [AuditSink.write, AuditEvent.toJsonLine, hjson, hfate]⟩

theorem lineStart_iff : LineStart file ↔ endsTorn file = false := by
  unfold LineStart endsTorn
  cases file.getLast? with
  | none => simp
  | some b => simp

theorem endsTorn_append {bytes : List UInt8} (hne : bytes ≠ []) :
    endsTorn (file ++ bytes) = endsTorn bytes := by
  unfold endsTorn
  rw [List.getLast?_append_of_ne_nil _ hne]

/-- What one call does to the end of the file. -/
theorem endsTorn_write (hline : ∀ e json, toVec e = some json → 0x0A ∉ json) (w : AuditWrite) :
    endsTorn (file ++ (AuditSink.write toVec w.event w.fate).2)
      = (w.lineEnd toVec).tears (endsTorn file) := by
  unfold AuditSink.write AuditWrite.lineEnd AuditEvent.toJsonLine
  cases hjson : toVec w.event with
  | none => simp [LineEnd.tears]
  | some json =>
      have hwhole : endsTorn (file ++ (json ++ [0x0A])) = false := by
        rw [endsTorn_append (by simp)]
        simp [endsTorn]
      cases w.fate with
      | poisoned => simp [LineEnd.tears]
      | flush | sync | durable => exact hwhole
      | write written =>
          by_cases hzero : written = 0
          · simp [hzero, LineEnd.tears]
          by_cases hlen : written ≤ json.length
          · -- the part ends in a byte of the JSON
            have hne : json.take written ≠ [] := by
              intro h
              have := congrArg List.length h
              rw [List.length_take, List.length_nil] at this
              omega
            have hlast : (json.take written).getLast hne ≠ 0x0A := by
              intro h
              exact hline _ _ hjson (List.mem_of_mem_take (h ▸ List.getLast_mem hne))
            simp only [if_neg hzero, if_pos hlen, List.take_append_of_le_length hlen,
              endsTorn_append hne, LineEnd.tears]
            simp [endsTorn, List.getLast?_eq_some_getLast hne, hlast]
          · have htake : (json ++ [0x0A]).take written = json ++ [0x0A] := by
              apply List.take_of_length_le
              rw [List.length_append, List.length_singleton]
              omega
            simp only [if_neg hzero, if_neg hlen, htake]
            exact hwhole

/-- The end of the file, followed through the calls. -/
theorem endsTorn_writeAll (hline : ∀ e json, toVec e = some json → 0x0A ∉ json) :
    endsTorn (writeAll toVec file writes) = tornAfter toVec (endsTorn file) writes := by
  induction writes generalizing file with
  | nil => simp [writeAll, tornAfter]
  | cons w writes ih =>
      have hcons : writeAll toVec file (w :: writes)
          = writeAll toVec (file ++ (AuditSink.write toVec w.event w.fate).2) writes := by
        simp [writeAll]
      rw [hcons, ih, endsTorn_write hline]
      rfl

/-- The acknowledged records are intact in exactly the runs of calls in which none is acknowledged
while a line is torn. -/
theorem recordsIntact_iff (hline : ∀ e json, toVec e = some json → 0x0A ∉ json) :
    RecordsIntact toVec file writes ↔ TornUnused toVec file writes := by
  constructor
  · intro h before w after hsplit hack
    obtain ⟨_, _, _, _, hstart, _⟩ := h hsplit hack
    rwa [lineStart_iff, endsTorn_writeAll hline] at hstart
  · intro h before w after hsplit hack
    obtain ⟨json, hjson, happended⟩ := hack.appended
    have hstart : LineStart (writeAll toVec file before) := by
      rw [lineStart_iff, endsTorn_writeAll hline]
      exact h hsplit hack
    refine ⟨json, after.flatMap fun w => (AuditSink.write toVec w.event w.fate).2, hjson,
      hline _ _ hjson, hstart, ?_⟩
    rw [hsplit, writeAll_append]
    simp [writeAll, happended]

/-- A torn line takes in the record behind it. -/
theorem not_line_of_torn {part json : List UInt8} (hpart : part ≠ []) (hp : 0x0A ∉ part)
    (hj : 0x0A ∉ json) : ¬∃ before rest, LineStart before ∧
      part ++ json ++ [0x0A] = before ++ json ++ 0x0A :: rest := by
  rintro ⟨before, rest, hstart, h⟩
  have hsame : part ++ json = before ++ json := by
    rcases List.append_eq_append_iff.mp h with ⟨as, has, hrest⟩ | ⟨as, has, hrest⟩
    · cases as with
      | nil => rw [has, List.append_nil]
      | cons a as => simp at hrest
    · cases as with
      | nil => rw [has, List.append_nil]
      | cons a as =>
          -- a line feed inside the part or the JSON
          obtain ⟨rfl, _⟩ := List.cons.inj hrest
          have hmem : (0x0A : UInt8) ∈ part ++ json := by simp [has]
          rcases List.mem_append.mp hmem with hmem | hmem
          · exact absurd hmem hp
          · exact absurd hmem hj
  obtain rfl := List.append_cancel_right hsame
  have hlast := hstart _ (List.getLast?_eq_some_getLast hpart)
  exact hp (hlast ▸ List.getLast_mem hpart)

/-! ## One torn line -/

def sampleEvent : AuditEvent where
  schemaVersion := 1
  eventId := "av_evt_12345678".toList
  timestampUnixMs := 1
  sessionPseudonym := "av_session_12345678".toList
  requestSequence := 1
  route := .responses
  decision := .allowed
  findings := []
  upstreamOutcome := .pending
  scanLatencyMs := 1
  policyName := "default".toList
  policyHash := List.replicate 64 'a'
  agentveilVersion := "0.1.6".toList

/-- The JSON of the event. -/
def sampleJson : Str :=
  "\x7b\"schema_version\":1,\"event_id\":\"av_evt_12345678\",\"timestamp_unix_ms\":1,".toList
    ++ "\"session_pseudonym\":\"av_session_12345678\",\"request_sequence\":1,".toList
    ++ "\"route\":\"responses\",\"decision\":\"allowed\",\"findings\":[],".toList
    ++ "\"upstream_outcome\":\"pending\",\"scan_latency_ms\":1,\"policy_name\":\"default\",".toList
    ++ "\"policy_hash\":\"".toList ++ List.replicate 64 'a'
    ++ "\",\"agentveil_version\":\"0.1.6\"\x7d".toList

def sampleToVec (event : AuditEvent) : Option (List UInt8) :=
  if event = sampleEvent then some (bytes sampleJson) else none

theorem sampleJson_line : 0x0A ∉ bytes sampleJson := by
  have hfeed : '\n' ∉ sampleJson := by decide +kernel
  exact fun h => hfeed (feed_mem_bytes h)

theorem sampleToVec_line : ∀ e json, sampleToVec e = some json → 0x0A ∉ json := by
  intro e json h
  unfold sampleToVec at h
  split at h
  · cases h
    exact sampleJson_line
  · cases h

/-- One byte of the line, and then the line. -/
def tornWrites : List AuditWrite := [⟨sampleEvent, .write 1⟩, ⟨sampleEvent, .durable⟩]

/-- The acknowledged record is behind a torn line, and is no line anywhere in the file. -/
theorem not_recordsIntact_torn : ¬RecordsIntact sampleToVec [] tornWrites ∧
    ¬∃ before rest, LineStart before ∧
      writeAll sampleToVec [] tornWrites = before ++ bytes sampleJson ++ 0x0A :: rest := by
  have hhead : (bytes sampleJson).head? = some 0x7B := by decide +kernel
  obtain ⟨tail, htail⟩ := List.head?_eq_some_iff.mp hhead
  have hjson : sampleToVec sampleEvent = some (bytes sampleJson) := if_pos rfl
  have hpart : writeAll sampleToVec [] [⟨sampleEvent, .write 1⟩] = [0x7B] := by
    simp [writeAll, AuditSink.write, AuditEvent.toJsonLine, hjson, htail]
  have hfile : writeAll sampleToVec [] tornWrites = [0x7B] ++ bytes sampleJson ++ [0x0A] := by
    have hsplit : tornWrites = [⟨sampleEvent, .write 1⟩] ++ [⟨sampleEvent, .durable⟩] := rfl
    rw [hsplit, writeAll_append, hpart]
    simp [writeAll, AuditSink.write, AuditEvent.toJsonLine, hjson]
  constructor
  · intro h
    have hack : (⟨sampleEvent, .durable⟩ : AuditWrite).Acknowledged sampleToVec :=
      acknowledged_iff.mpr ⟨rfl, _, hjson⟩
    obtain ⟨_, _, _, _, hstart, _⟩ := @h [⟨sampleEvent, .write 1⟩] _ [] rfl hack
    rw [hpart] at hstart
    cases hstart 0x7B rfl
  · rw [hfile]
    exact not_line_of_torn (by simp) (by simp) sampleJson_line

/-- A torn line, and a whole one behind it that is not synced, between two acknowledged records. -/
def mendedWrites : List AuditWrite :=
  [⟨sampleEvent, .durable⟩, ⟨sampleEvent, .write 1⟩, ⟨sampleEvent, .sync⟩, ⟨sampleEvent, .durable⟩]

theorem recordsIntact_durable : RecordsIntact sampleToVec [] mendedWrites := by
  apply (recordsIntact_iff sampleToVec_line).mpr
  intro before w after hsplit hack
  have hfate := (acknowledged_iff.mp hack).1
  rcases before with _ | ⟨first, _ | ⟨second, _ | ⟨third, _ | ⟨fourth, before⟩⟩⟩⟩
  · rfl
  · simp only [mendedWrites, List.cons_append, List.nil_append, List.cons.injEq] at hsplit
    obtain ⟨_, rfl, _⟩ := hsplit
    cases hfate
  · simp only [mendedWrites, List.cons_append, List.nil_append, List.cons.injEq] at hsplit
    obtain ⟨_, _, rfl, _⟩ := hsplit
    cases hfate
  · simp only [mendedWrites, List.cons_append, List.nil_append, List.cons.injEq] at hsplit
    obtain ⟨rfl, rfl, rfl, _⟩ := hsplit
    decide +kernel
  · simp [mendedWrites] at hsplit

end AgentVeil
