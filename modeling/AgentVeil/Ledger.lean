import AgentVeil.Domain
import AgentVeil.Rust.Collections

/-!
# The token ledger

The memory-only map of `ledger.rs` from issued tokens to the values they stand for. Time, sequence
and expiry are `u64` values, kept as naturals with the bounds of the checked and saturating
operations. Every operation returns the ledger it leaves behind, on error paths as well.
-/

namespace AgentVeil

open Rust

def tokenRandomBytes : Nat := 16
def maxTokenAttempts : Nat := 8
def u64Max : Nat := 2 ^ 64 - 1

/-- `u64::checked_add` and `u64::checked_mul`. -/
def checkedU64 (n : Nat) : Option Nat := if n ≤ u64Max then some n else none

inductive LedgerError where
  | invalidSessionScope
  | invalidCapacity
  | emptyValue
  | nonRestorableClass (dataClass : DataClass)
  | randomUnavailable
  | tokenEncoding
  | tokenCollision
  | expiryOverflow
  deriving DecidableEq, Repr

def isScopeText (value : Str) : Bool :=
  12 ≤ len value && len value ≤ 64 &&
    value.all fun c => isAsciiAlphanumeric c || c = '-' || c = '_'

/-- A session scope; only accepted text can be one. -/
structure SessionScope where
  value : Str
  accepted : isScopeText value = true
  deriving DecidableEq

def SessionScope.parse (value : Str) : Except LedgerError SessionScope :=
  if h : isScopeText value = true then .ok ⟨value, h⟩ else .error .invalidSessionScope

/-- The text of an issued token. -/
abbrev Token := Str

structure IssuedToken where
  token : Token
  created : Bool
  deriving DecidableEq

/-- A source of random bytes, which may fail at any call. -/
class RandomSource (R : Type) where
  fill : R → Except LedgerError (Fin tokenRandomBytes → UInt8) × R

structure Entry where
  scope : SessionScope
  dataClass : DataClass
  value : Str
  expiresAtMs : Nat
  lastUsedSequence : Nat
  deriving DecidableEq

structure TokenLedger (R : Type) where
  entries : HashMap Token Entry
  maxEntries : Nat
  sequence : Nat
  random : R

/-- A hexadecimal digit, upper case. -/
def hexDigit (n : Nat) : Char := Char.ofNat (if n < 10 then 48 + n else 55 + n)

/-- `{byte:02X}` -/
def hexByte (b : UInt8) : Str := [hexDigit (b.toNat / 16), hexDigit (b.toNat % 16)]

/-- `[AV_{label}_{encoded}]` -/
def tokenText (dataClass : DataClass) (encoded : Str) : Token :=
  "[AV_".toList ++ dataClass.tokenLabel ++ "_".toList ++ encoded ++ "]".toList

namespace TokenLedger

variable {R : Type}

/-- `TokenLedger::with_random`, over an empty hash map. -/
def withRandom (map : HashMap Token Entry) (maxEntries : Nat) (random : R) :
    Except LedgerError (TokenLedger R) :=
  if maxEntries = 0 ∨ maxEntries > 16384 then .error .invalidCapacity
  else .ok ⟨map.clear, maxEntries, 0, random⟩

def purgeExpired (l : TokenLedger R) (nowMs : Nat) : TokenLedger R :=
  { l with entries := l.entries.retain fun _ e => nowMs < e.expiresAtMs }

/-- The entry `evict_lru` removes: one with the least sequence, the first in iteration order. -/
def victim (l : TokenLedger R) : Option Token :=
  (minByKey (fun e => e.2.lastUsedSequence) l.entries.iter).map Prod.fst

def evictLru (l : TokenLedger R) : TokenLedger R :=
  match l.victim with
  | none => l
  | some token => { l with entries := l.entries.remove token }

/-- `self.sequence = self.sequence.saturating_add(1)` -/
def bump (l : TokenLedger R) : TokenLedger R :=
  { l with sequence := min (l.sequence + 1) u64Max }

/-- The eviction before an insertion into a full ledger. -/
def makeRoom (l : TokenLedger R) : TokenLedger R :=
  if l.entries.size ≥ l.maxEntries then l.evictLru else l

/-- The live entry that `issue_tracked` reuses. -/
def findReusable (l : TokenLedger R) (scope : SessionScope) (dataClass : DataClass) (value : Str)
    (nowMs : Nat) : Option (Token × Entry) :=
  l.entries.iter.find? fun e =>
    e.2.scope = scope && e.2.dataClass = dataClass && e.2.value = value && nowMs < e.2.expiresAtMs

variable [RandomSource R]

def generateToken (l : TokenLedger R) (dataClass : DataClass) :
    Except LedgerError Token × TokenLedger R :=
  match RandomSource.fill l.random with
  | (.error e, random) => (.error e, { l with random })
  | (.ok bytes, random) =>
      (.ok (tokenText dataClass ((List.ofFn bytes).flatMap hexByte)), { l with random })

/-- The loop of `issue_tracked` that draws tokens until one is free. -/
def insertFresh (entry : Entry) : Nat → TokenLedger R → Except LedgerError IssuedToken × TokenLedger R
  | 0, l => (.error .tokenCollision, l)
  | attempts + 1, l =>
      match l.generateToken entry.dataClass with
      | (.error e, l) => (.error e, l)
      | (.ok token, l) =>
          if l.entries.containsKey token then insertFresh entry attempts l
          else (.ok ⟨token, true⟩, { l with entries := l.entries.insert token entry })

/-- The part of `issue_tracked` after its checks, with the expiry it computed. -/
def issueChecked (l : TokenLedger R) (scope : SessionScope) (dataClass : DataClass) (value : Str)
    (nowMs expiresAtMs : Nat) : Except LedgerError IssuedToken × TokenLedger R :=
  let l := (l.purgeExpired nowMs).bump
  match l.findReusable scope dataClass value nowMs with
  | some (token, _) =>
      (.ok ⟨token, false⟩,
        { l with entries := l.entries.modify token fun e =>
            { e with lastUsedSequence := l.sequence, expiresAtMs } })
  | none =>
      insertFresh ⟨scope, dataClass, value, expiresAtMs, l.sequence⟩ maxTokenAttempts l.makeRoom

def issueTracked (l : TokenLedger R) (scope : SessionScope) (dataClass : DataClass) (value : Str)
    (nowMs ttlSeconds : Nat) : Except LedgerError IssuedToken × TokenLedger R :=
  if value = [] then (.error .emptyValue, l)
  else if dataClass.hardBlock then (.error (.nonRestorableClass dataClass), l)
  else
    match checkedU64 (ttlSeconds * 1000) with
    | none => (.error .expiryOverflow, l)
    | some ttlMs =>
        match checkedU64 (nowMs + ttlMs) with
        | none => (.error .expiryOverflow, l)
        | some expiresAtMs => l.issueChecked scope dataClass value nowMs expiresAtMs

omit [RandomSource R]

/-- One step of `rollback_created`. -/
def rollbackOne (scope : SessionScope) (l : TokenLedger R) (token : Token) : TokenLedger R :=
  if (l.entries.get token).any (·.scope = scope) then
    { l with entries := l.entries.remove token }
  else l

def rollbackCreated (l : TokenLedger R) (scope : SessionScope) (tokens : List Token) :
    TokenLedger R :=
  tokens.foldl (rollbackOne scope) l

def restoreExact (l : TokenLedger R) (scope : SessionScope) (token : Token) (nowMs : Nat) :
    Option Str × TokenLedger R :=
  let l := (l.purgeExpired nowMs).bump
  match l.entries.get token with
  | none => (none, l)
  | some entry =>
      if entry.scope ≠ scope ∨ entry.expiresAtMs ≤ nowMs then (none, l)
      else
        (some entry.value,
          { l with entries := l.entries.modify token fun e =>
              { e with lastUsedSequence := l.sequence } })

def ownsToken (l : TokenLedger R) (scope : SessionScope) (token : Token) (nowMs : Nat) :
    Bool × TokenLedger R :=
  let l := l.purgeExpired nowMs
  ((l.entries.get token).any fun e => e.scope = scope && nowMs < e.expiresAtMs, l)

def clearScope (l : TokenLedger R) (scope : SessionScope) : Nat × TokenLedger R :=
  let kept := l.entries.retain fun _ e => e.scope ≠ scope
  (l.entries.size - kept.size, { l with entries := kept })

def clearAll (l : TokenLedger R) : Nat × TokenLedger R :=
  (l.entries.size, { l with entries := l.entries.clear })

def entryCount (l : TokenLedger R) (nowMs : Nat) : Nat × TokenLedger R :=
  let l := l.purgeExpired nowMs
  (l.entries.size, l)

end TokenLedger

/-- The deterministic source of the repository's tests: each fill is one byte, and the next is the
byte after it. -/
structure CounterRandom where
  next : UInt8

instance : RandomSource CounterRandom where
  fill r := (.ok fun _ => r.next + 1, ⟨r.next + 1⟩)

end AgentVeil
