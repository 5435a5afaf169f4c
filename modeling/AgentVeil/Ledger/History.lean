import AgentVeil.Ledger.Lemmas.Issue

/-!
# Runs of the ledger and their histories

A run is any sequence of ledger operations, by any scopes, whose times do not decrease. Beside the
ledger it records the events that the operations cause. `Restorable` says, from the events alone,
which value a token stands for; nothing in it looks at the ledger.
-/

namespace AgentVeil

open Rust

/-! ## Operations and events -/

inductive LedgerOp where
  | issueTracked (scope : SessionScope) (dataClass : DataClass) (value : Str)
      (nowMs ttlSeconds : Nat)
  | rollbackCreated (scope : SessionScope) (tokens : List Token)
  | restoreExact (scope : SessionScope) (token : Token) (nowMs : Nat)
  | ownsToken (scope : SessionScope) (token : Token) (nowMs : Nat)
  | clearScope (scope : SessionScope)
  | clearAll
  | entryCount (nowMs : Nat)

/-- The time an operation is given, if it takes one. -/
def LedgerOp.nowMs : LedgerOp → Option Nat
  | issueTracked _ _ _ now _ | restoreExact _ _ now | ownsToken _ _ now | entryCount now => some now
  | rollbackCreated _ _ | clearScope _ | clearAll => none

/-- The scope an operation acts for, if it acts for one. -/
def LedgerOp.scope : LedgerOp → Option SessionScope
  | issueTracked s _ _ _ _ | rollbackCreated s _ | restoreExact s _ _ | ownsToken s _ _
  | clearScope s => some s
  | clearAll | entryCount _ => none

inductive LedgerEvent where
  | inserted (token : Token) (scope : SessionScope) (dataClass : DataClass) (value : Str)
      (expiresAtMs : Nat)
  | reused (token : Token) (expiresAtMs : Nat)
  | evicted (token : Token)
  | rolledBack (scope : SessionScope) (token : Token)
  | clearedScope (scope : SessionScope)
  | clearedAll

namespace TokenLedger

variable {R : Type} [RandomSource R]

/-- The ledger after an operation. -/
def step (l : TokenLedger R) : LedgerOp → TokenLedger R
  | .issueTracked scope c v now ttl => (l.issueTracked scope c v now ttl).2
  | .rollbackCreated scope tokens => l.rollbackCreated scope tokens
  | .restoreExact scope token now => (l.restoreExact scope token now).2
  | .ownsToken scope token now => (l.ownsToken scope token now).2
  | .clearScope scope => (l.clearScope scope).2
  | .clearAll => l.clearAll.2
  | .entryCount now => (l.entryCount now).2

/-- The token that an issue evicts, when it gets as far as making room. -/
def evictedBy (l : TokenLedger R) (scope : SessionScope) (c : DataClass) (v : Str)
    (now ttl : Nat) : Option Token :=
  if Issuable c v now ttl ∧ (l.opened now).findReusable scope c v now = none then
    (l.opened now).evicted
  else none

/-- The events of one issue: its eviction, and what it returned. -/
def issueEvents (l : TokenLedger R) (scope : SessionScope) (c : DataClass) (v : Str)
    (now ttl : Nat) : List LedgerEvent :=
  (l.evictedBy scope c v now ttl).toList.map .evicted ++
    match (l.issueTracked scope c v now ttl).1 with
    | .ok ⟨t, true⟩ => [.inserted t scope c v (now + ttl * 1000)]
    | .ok ⟨t, false⟩ => [.reused t (now + ttl * 1000)]
    | .error _ => []

/-- The events of an operation. -/
def events (l : TokenLedger R) : LedgerOp → List LedgerEvent
  | .issueTracked scope c v now ttl => l.issueEvents scope c v now ttl
  | .rollbackCreated scope tokens => tokens.map (.rolledBack scope)
  | .clearScope scope => [.clearedScope scope]
  | .clearAll => [.clearedAll]
  | .restoreExact .. | .ownsToken .. | .entryCount .. => []

end TokenLedger

/-- A run from `start`: the time it has reached, its ledger and its events, the oldest first. -/
inductive Run {R : Type} [RandomSource R] (start : TokenLedger R) :
    Nat → TokenLedger R → List LedgerEvent → Prop where
  | start : Run start 0 start []
  | step {clock l h} (op : LedgerOp) (run : Run start clock l h)
      (later : ∀ now ∈ op.nowMs, clock ≤ now) :
      Run start (op.nowMs.getD clock) (l.step op) (h ++ l.events op)

/-! ## What a history says about a token -/

/-- The event ends what an earlier insertion of `t` for scope `s` set up. -/
def LedgerEvent.Ends (s : SessionScope) (t : Token) : LedgerEvent → Prop
  | inserted t' .. | evicted t' => t' = t
  | rolledBack s' t' => s' = s ∧ t' = t
  | clearedScope s' => s' = s
  | clearedAll => True
  | reused .. => False

/-- The expiry set by the most recent issue in `h` that returned `t`, or else `x`. -/
def lastExpiry (t : Token) (x : Nat) : List LedgerEvent → Nat
  | [] => x
  | .reused t' x' :: h => lastExpiry t (if t' = t then x' else x) h
  | _ :: h => lastExpiry t x h

/-- `t` was last inserted for scope `s`, a restorable class and the value `v`, it has not been
evicted, rolled back for `s` or cleared since, and its expiry is after `now`. -/
def Restorable (h : List LedgerEvent) (s : SessionScope) (t : Token) (v : Str) (now : Nat) : Prop :=
  ∃ h₁ h₂ c x, h = h₁ ++ .inserted t s c v x :: h₂ ∧ c.hardBlock = false ∧
    (∀ ev ∈ h₂, ¬ev.Ends s t) ∧ now < lastExpiry t x h₂

/-! ## The record of a token -/

/-- What the events so far say about one token. -/
structure Record where
  scope : SessionScope
  dataClass : DataClass
  value : Str
  expiresAtMs : Nat

def LedgerEvent.apply (t : Token) (r : Option Record) : LedgerEvent → Option Record
  | inserted t' s c v x => if t' = t then some ⟨s, c, v, x⟩ else r
  | reused t' x => if t' = t then r.map fun r => { r with expiresAtMs := x } else r
  | evicted t' => if t' = t then none else r
  | rolledBack s t' => if t' = t then r.filter (·.scope ≠ s) else r
  | clearedScope s => r.filter (·.scope ≠ s)
  | clearedAll => none

def record (h : List LedgerEvent) (t : Token) : Option Record := h.foldl (LedgerEvent.apply t) none

end AgentVeil
