import AgentVeil.Domain

/-!
# Audit events and the audit file

The events of `audit.rs` and the sink of `audit_sink.rs`. What the file system does with one write is
a parameter of the call.
-/

namespace AgentVeil

open Rust

inductive AuditDecision where
  | allowed | rewritten | blocked | rejected
  deriving DecidableEq, Repr

inductive UpstreamOutcome where
  | notStarted | pending | started | completed | failed
  deriving DecidableEq, Repr

inductive AuditRoute where
  | responses | models
  deriving DecidableEq, Repr

structure AuditFinding where
  detector : DetectorId
  dataClass : DataClass
  confidence : Confidence
  action : Action
  sourceField : FieldClass
  count : Nat
  deriving DecidableEq

structure AuditEvent where
  schemaVersion : UInt8
  eventId : Str
  timestampUnixMs : Nat
  sessionPseudonym : Str
  requestSequence : UInt64
  route : AuditRoute
  decision : AuditDecision
  findings : List AuditFinding
  upstreamOutcome : UpstreamOutcome
  scanLatencyMs : Nat
  policyName : Str
  policyHash : Str
  agentveilVersion : Str
  deriving DecidableEq

inductive AuditError where
  | unsafeMetadata
  | serialize
  deriving DecidableEq, Repr

def safeIdentifier (value : Str) (minimum maximum : Nat) : Bool :=
  minimum ≤ len value && len value ≤ maximum &&
    value.all fun c => isAsciiAlphanumeric c || c = '-' || c = '_'

def isAsciiHexdigit (c : Char) : Bool :=
  isAsciiDigit c || ('a' ≤ c && c ≤ 'f') || ('A' ≤ c && c ≤ 'F')

def safeHex (value : Str) (length : Nat) : Bool := len value = length && value.all isAsciiHexdigit

def safeVersion (value : Str) : Bool :=
  value ≠ [] && len value ≤ 32 && value.all fun c => isAsciiDigit c || c = '.' || c = '-'

/-- `AuditEvent::new` -/
def AuditEvent.new (eventId : Str) (timestampUnixMs : Nat) (sessionPseudonym : Str)
    (requestSequence : UInt64) (decision : AuditDecision) (findings : List AuditFinding)
    (upstreamOutcome : UpstreamOutcome) (scanLatencyMs : Nat)
    (policyName policyHash agentveilVersion : Str) : Except AuditError AuditEvent :=
  if safeIdentifier eventId 8 72 = false ∨ safeIdentifier sessionPseudonym 8 72 = false ∨
      safeIdentifier policyName 1 48 = false ∨ safeHex policyHash 64 = false ∨
      safeVersion agentveilVersion = false then
    .error .unsafeMetadata
  else
    .ok {
      schemaVersion := 1
      eventId
      timestampUnixMs
      sessionPseudonym
      requestSequence
      route := .responses
      decision
      findings
      upstreamOutcome
      scanLatencyMs
      policyName
      policyHash
      agentveilVersion }

/-- `AuditEvent::to_json_line`, with the derived serializer. -/
def AuditEvent.toJsonLine (toVec : AuditEvent → Option (List UInt8)) (event : AuditEvent) :
    Except AuditError (List UInt8) :=
  match toVec event with
  | none => .error .serialize
  | some bytes => .ok (bytes ++ [0x0A])

/-! ## The sink -/

/-- The errors of a write; those of opening a sink are left out. -/
inductive AuditSinkError where
  | serialize | poisoned | write | flush | sync
  deriving DecidableEq, Repr

/-- What becomes of a write: the lock is poisoned, the line is cut after some bytes, it is not flushed
or not synced, or it is durable. -/
inductive WriteFate where
  | poisoned
  | write (written : Nat)
  | flush
  | sync
  | durable
  deriving DecidableEq, Repr

/-- The sink, with the bytes of its file. -/
structure AuditSink where
  file : List UInt8
  deriving DecidableEq

/-- `AuditSink::write`: the result, and the bytes that the file gains. -/
def AuditSink.write (toVec : AuditEvent → Option (List UInt8)) (event : AuditEvent) (fate : WriteFate) :
    Except AuditSinkError Unit × List UInt8 :=
  match event.toJsonLine toVec with
  | .error _ => (.error .serialize, [])
  | .ok line =>
      match fate with
      | .poisoned => (.error .poisoned, [])
      | .write written => (.error .write, line.take written)
      | .flush => (.error .flush, line)
      | .sync => (.error .sync, line)
      | .durable => (.ok (), line)

end AgentVeil
