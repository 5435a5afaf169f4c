import AgentVeil.Ledger.Invariants
import AgentVeil.Rust.Ranked
import Mathlib.Data.List.Find

/-!
# The ledger is a bounded LRU cache

The reference keeps records in a list, the least recently used first, and knows no sequence numbers
and no hash map. The ledger represents it: its entries by increasing sequence are the list.
-/

namespace AgentVeil

open Rust

/-! ## The reference -/

/-- What an operation returns. -/
inductive LedgerResult where
  | issued (result : Except LedgerError IssuedToken)
  | restored (value : Option Str)
  | owned (owns : Bool)
  | counted (entries : Nat)
  | done

/-- A cache whose slots stand from the least to the most recently used. -/
structure LruCache (R : Type) where
  slots : List (Token × Record)
  maxEntries : Nat
  random : R

namespace LruCache

variable {R : Type}

def unexpired (c : LruCache R) (now : Nat) : LruCache R :=
  { c with slots := c.slots.filter fun s => now < s.2.expiresAtMs }

def lookup (c : LruCache R) (t : Token) : Option Record :=
  (c.slots.find? (·.1 = t)).map Prod.snd

/-- The slot under `t` moves to the end. -/
def toEnd (c : LruCache R) (t : Token) (r : Record) : LruCache R :=
  { c with slots := c.slots.filter (fun s => decide (s.1 ≠ t)) ++ [(t, r)] }

/-- A full cache loses its head. -/
def makeRoom (c : LruCache R) : LruCache R :=
  if c.slots.length ≥ c.maxEntries then { c with slots := c.slots.tail } else c

def restore (c : LruCache R) (scope : SessionScope) (t : Token) : Option Str × LruCache R :=
  match c.lookup t with
  | none => (none, c)
  | some r => if r.scope = scope then (some r.value, c.toEnd t r) else (none, c)

def owns (c : LruCache R) (scope : SessionScope) (t : Token) : Bool :=
  (c.lookup t).any (·.scope = scope)

def rollback (c : LruCache R) (scope : SessionScope) (ts : List Token) : LruCache R :=
  { c with slots := c.slots.filter fun s => !(s.1 ∈ ts && s.2.scope = scope) }

/-- Drops the slots that `p` selects, and counts them. -/
def drop (c : LruCache R) (p : Record → Bool) : Nat × LruCache R :=
  ((c.slots.filter (p ·.2)).length, { c with slots := c.slots.filter (!p ·.2) })

variable [RandomSource R]

/-- A record goes to the end under the first of the tokens drawn that is free. -/
def insertFresh (r : Record) : Nat → LruCache R → Except LedgerError IssuedToken × LruCache R
  | 0, c => (.error .tokenCollision, c)
  | attempts + 1, c =>
      match RandomSource.fill c.random with
      | (.error e, random) => (.error e, { c with random })
      | (.ok bytes, random) =>
          let t := tokenText r.dataClass ((List.ofFn bytes).flatMap hexByte)
          if (c.lookup t).isSome then insertFresh r attempts { c with random }
          else (.ok ⟨t, true⟩, { c with random, slots := c.slots ++ [(t, r)] })

/-- An issue whose arguments are accepted. -/
def issueRecord (c : LruCache R) (r : Record) : Except LedgerError IssuedToken × LruCache R :=
  let same := c.slots.find? fun s =>
    s.2.scope = r.scope && s.2.dataClass = r.dataClass && s.2.value = r.value
  match same with
  | some (t, _) => (.ok ⟨t, false⟩, c.toEnd t r)
  | none => insertFresh r maxTokenAttempts c.makeRoom

/-- A rejected issue changes nothing. -/
def issue (c : LruCache R) (scope : SessionScope) (dataClass : DataClass) (value : Str)
    (now ttlSeconds : Nat) : Except LedgerError IssuedToken × LruCache R :=
  if value = [] then (.error .emptyValue, c)
  else if dataClass.hardBlock then (.error (.nonRestorableClass dataClass), c)
  else if now + ttlSeconds * 1000 > u64Max then (.error .expiryOverflow, c)
  else (c.unexpired now).issueRecord ⟨scope, dataClass, value, now + ttlSeconds * 1000⟩

/-- An operation on the reference, with what it returns. -/
def apply (c : LruCache R) : LedgerOp → LedgerResult × LruCache R
  | .issueTracked scope dataClass value now ttl =>
      let r := c.issue scope dataClass value now ttl
      (.issued r.1, r.2)
  | .restoreExact scope t now =>
      let r := (c.unexpired now).restore scope t
      (.restored r.1, r.2)
  | .ownsToken scope t now => (.owned ((c.unexpired now).owns scope t), c.unexpired now)
  | .rollbackCreated scope ts => (.done, c.rollback scope ts)
  | .clearScope scope =>
      let r := c.drop fun r => r.scope = scope
      (.counted r.1, r.2)
  | .clearAll =>
      let r := c.drop fun _ => true
      (.counted r.1, r.2)
  | .entryCount now => (.counted (c.unexpired now).slots.length, c.unexpired now)

/-- What the operations of a run return. -/
def results (c : LruCache R) : List LedgerOp → List LedgerResult
  | [] => []
  | op :: ops => (c.apply op).1 :: (c.apply op).2.results ops

end LruCache

namespace TokenLedger

variable {R : Type} [RandomSource R]

/-- What an operation on the ledger returns. -/
def result (l : TokenLedger R) : LedgerOp → LedgerResult
  | .issueTracked scope dataClass value now ttl =>
      .issued (l.issueTracked scope dataClass value now ttl).1
  | .restoreExact scope t now => .restored (l.restoreExact scope t now).1
  | .ownsToken scope t now => .owned (l.ownsToken scope t now).1
  | .rollbackCreated .. => .done
  | .clearScope scope => .counted (l.clearScope scope).1
  | .clearAll => .counted l.clearAll.1
  | .entryCount now => .counted (l.entryCount now).1

/-- What the operations of a run return. -/
def results (l : TokenLedger R) : List LedgerOp → List LedgerResult
  | [] => []
  | op :: ops => l.result op :: (l.step op).results ops

end TokenLedger

/-! ## The simulation -/

/-- What the cache sees of an entry. -/
def slot (e : Token × Entry) : Token × Record := (e.1, e.2.toRecord)

/-- The entries of the ledger by increasing sequence are the slots of the cache. -/
def Represents {R : Type} (l : TokenLedger R) (c : LruCache R) : Prop :=
  ∃ L, Ranked Entry.lastUsedSequence l.entries L ∧ c = ⟨L.map slot, l.maxEntries, l.random⟩

/-- Two results of one operation: the values are equal and the ledger represents the cache. -/
def Agree {R ρ : Type} (a : ρ × TokenLedger R) (b : ρ × LruCache R) : Prop :=
  a.1 = b.1 ∧ Represents a.2 b.2

namespace Represents

variable {R : Type} {l : TokenLedger R} {c : LruCache R}

theorem maxEntries (h : Represents l c) : c.maxEntries = l.maxEntries := by
  obtain ⟨L, _, rfl⟩ := h
  rfl

theorem random (h : Represents l c) : c.random = l.random := by
  obtain ⟨L, _, rfl⟩ := h
  rfl

theorem length (h : Represents l c) : c.slots.length = l.entries.size := by
  obtain ⟨L, hL, rfl⟩ := h
  rw [List.length_map]
  exact hL.length

theorem withRandom (h : Represents l c) (random : R) :
    Represents { l with random } { c with random } := by
  obtain ⟨L, hL, rfl⟩ := h
  exact ⟨L, hL, rfl⟩

theorem lookup (h : Represents l c) (t : Token) :
    c.lookup t = (l.entries.get t).map Entry.toRecord := by
  obtain ⟨L, hL, rfl⟩ := h
  rw [hL.get, LruCache.lookup, List.find?_map, Option.map_map, Option.map_map]
  rfl

theorem contains (h : Represents l c) (t : Token) :
    (c.lookup t).isSome = l.entries.containsKey t := by
  rw [h.lookup, Option.isSome_map]
  rfl

/-- A filter that looks only at what the cache sees. -/
theorem filter (h : Represents l c) {p : Token → Entry → Bool} {q : Token × Record → Bool}
    (same : ∀ t e, p t e = q (t, e.toRecord)) :
    Represents { l with entries := l.entries.retain p } { c with slots := c.slots.filter q } := by
  obtain ⟨L, hL, rfl⟩ := h
  refine ⟨_, hL.retain p, ?_⟩
  simp only [List.filter_map]
  congr 2
  exact List.filter_congr fun e _ => (same e.1 e.2).symm

theorem unexpired (h : Represents l c) (now : Nat) :
    Represents (l.purgeExpired now) (c.unexpired now) :=
  h.filter (q := fun s => decide (now < s.2.expiresAtMs)) fun _ _ => rfl

theorem opened (h : Represents l c) (now : Nat) : Represents (l.opened now) (c.unexpired now) := by
  obtain ⟨L, hL, hc⟩ := h.unexpired now
  exact ⟨L, hL, hc⟩

theorem makeRoom (h : Represents l c) : Represents l.makeRoom c.makeRoom := by
  have hlen := h.length
  have hmax := h.maxEntries
  obtain ⟨L, hL, rfl⟩ := h
  unfold TokenLedger.makeRoom LruCache.makeRoom
  simp only [hlen]
  split
  · unfold TokenLedger.evictLru TokenLedger.victim
    rw [hL.head]
    cases L with
    | nil => exact ⟨[], hL, rfl⟩
    | cons e L => exact ⟨L, hL.remove_head, rfl⟩
  · exact ⟨L, hL, rfl⟩

/-- An entry that is used goes to the end. -/
theorem touch (h : Represents l c) {t : Token} {e : Entry} {f : Entry → Entry}
    (found : l.entries.get t = some e)
    (newest : ∀ t' e', l.entries.get t' = some e' →
      e'.lastUsedSequence < (f e).lastUsedSequence) :
    Represents { l with entries := l.entries.modify t f } (c.toEnd t (f e).toRecord) := by
  obtain ⟨L, hL, rfl⟩ := h
  refine ⟨_, hL.modify found newest, ?_⟩
  simp only [LruCache.toEnd, List.map_append, List.filter_map]
  rfl

/-- The live entry that is reused is the slot with the same scope, class and value. -/
theorem findReusable (h : Represents l c) (scope : SessionScope) (dataClass : DataClass)
    (value : Str) {now : Nat} (live : ∀ t e, l.entries.get t = some e → now < e.expiresAtMs)
    (unique : ∀ {t t' e e'}, l.entries.get t = some e → l.entries.get t' = some e' →
      e.scope = e'.scope → e.dataClass = e'.dataClass → e.value = e'.value → t = t') :
    (c.slots.find? fun s =>
        s.2.scope = scope && s.2.dataClass = dataClass && s.2.value = value)
      = (l.findReusable scope dataClass value now).map slot := by
  obtain ⟨L, hL, rfl⟩ := h
  rw [TokenLedger.findReusable, hL.find, List.find?_map]
  · congr 1
    apply List.find?_congr
    intro e he
    have hnow := live e.1 e.2 (hL.mem.mp he)
    change (decide (e.2.scope = scope) && decide (e.2.dataClass = dataClass)
      && decide (e.2.value = value)) = (_ && decide (now < e.2.expiresAtMs))
    rw [decide_eq_true hnow, Bool.and_true]
  · rintro ⟨t, e⟩ he ⟨t', e'⟩ he' hp hp'
    simp only [Bool.and_eq_true, decide_eq_true_eq] at hp hp'
    obtain ⟨⟨⟨hs, hc⟩, hv⟩, _⟩ := hp
    obtain ⟨⟨⟨hs', hc'⟩, hv'⟩, _⟩ := hp'
    have hg := hL.mem.mp he
    have hg' := hL.mem.mp he'
    obtain rfl := unique hg hg' (hs.trans hs'.symm) (hc.trans hc'.symm) (hv.trans hv'.symm)
    rw [hg] at hg'
    cases hg'
    rfl

variable [RandomSource R]

theorem insertFresh (h : Represents l c) (entry : Entry)
    (newest : ∀ t e, l.entries.get t = some e → e.lastUsedSequence < entry.lastUsedSequence)
    (n : Nat) : Agree (l.insertFresh entry n) (c.insertFresh entry.toRecord n) := by
  induction n generalizing l c with
  | zero => exact ⟨rfl, h⟩
  | succ n ih =>
      unfold TokenLedger.insertFresh LruCache.insertFresh TokenLedger.generateToken
      rw [h.random]
      cases RandomSource.fill l.random with
      | mk result random =>
          cases result with
          | error e => exact ⟨rfl, h.withRandom random⟩
          | ok bytes =>
              have hclass : entry.toRecord.dataClass = entry.dataClass := rfl
              simp only
              rw [h.contains, hclass]
              by_cases htaken : l.entries.containsKey
                  (tokenText entry.dataClass ((List.ofFn bytes).flatMap hexByte)) = true
              · rw [if_pos htaken, if_pos htaken]
                exact ih (h.withRandom random) newest
              · rw [if_neg htaken, if_neg htaken]
                obtain ⟨L, hL, rfl⟩ := h
                refine ⟨rfl, _, hL.insert_new ?_ newest, ?_⟩
                · exact Option.not_isSome_iff_eq_none.mp htaken
                · rw [List.map_append]
                  rfl

end Represents

/-! ## One operation -/

section Operations

variable {R : Type} {l : TokenLedger R} {c : LruCache R} {n : Nat}

/-- Below saturation the sequence just drawn is above every other. -/
theorem TokenLedger.Invariant.newest (inv : l.Invariant n) (few : n + 1 < u64Max) {now : Nat}
    {t : Token} {e : Entry} (h : (l.opened now).entries.get t = some e) :
    e.lastUsedSequence < (l.opened now).sequence := by
  have hseq := (inv.opened now).sequence
  have hle := inv.older (TokenLedger.get_opened.mp h).1
  rw [Nat.min_eq_left (Nat.le_of_lt few)] at hseq
  omega

theorem agree_restore (h : Represents l c) (inv : l.Invariant n) (few : n + 1 < u64Max)
    (scope : SessionScope) (t : Token) (now : Nat) :
    Agree (l.restoreExact scope t now) ((c.unexpired now).restore scope t) := by
  have hopen := h.opened now
  unfold LruCache.restore
  rw [hopen.lookup]
  cases he : (l.opened now).entries.get t with
  | none =>
      rw [TokenLedger.restoreExact_none he]
      exact ⟨rfl, hopen⟩
  | some e =>
      have hlive := (TokenLedger.get_opened.mp he).2
      rw [TokenLedger.restoreExact_some he]
      simp only [Option.map_some]
      by_cases hs : e.scope = scope
      · have hs' : e.toRecord.scope = scope := hs
        have hkeep : ¬(e.scope ≠ scope ∨ e.expiresAtMs ≤ now) := by
          rintro (h | h)
          · exact h hs
          · exact Nat.not_le.mpr hlive h
        rw [if_neg hkeep, if_pos hs']
        exact ⟨rfl, hopen.touch he fun t' e' => inv.newest few⟩
      · have hs' : ¬e.toRecord.scope = scope := hs
        rw [if_pos (.inl hs), if_neg hs']
        exact ⟨rfl, hopen⟩

theorem Represents.drop (h : Represents l c) (p : Record → Bool) :
    Represents { l with entries := l.entries.retain fun _ e => !p e.toRecord } (c.drop p).2 :=
  h.filter (q := fun s => !p s.2) fun _ _ => rfl

theorem Represents.drop_count (h : Represents l c) (p : Record → Bool) :
    (c.drop p).1 + (l.entries.retain fun _ e => !p e.toRecord).size = l.entries.size := by
  have hkept := (h.drop p).length
  have hsplit := List.length_eq_length_filter_add (l := c.slots) (p ·.2)
  rw [← h.length, hsplit]
  exact congrArg _ hkept.symm

theorem Represents.rollback (h : Represents l c) (scope : SessionScope) (ts : List Token) :
    Represents (l.rollbackCreated scope ts) (c.rollback scope ts) := by
  have hget := fun t => l.get_rollbackCreated scope ts t
  obtain ⟨entries, he⟩ := l.rollbackCreated_eq scope ts
  obtain ⟨L, hL, hc⟩ := h.filter (p := fun t e => !(t ∈ ts && e.scope = scope))
    (q := fun s => !(s.1 ∈ ts && s.2.scope = scope)) fun _ _ => rfl
  rw [he] at hget ⊢
  refine ⟨L, hL.congr fun t => ?_, hc⟩
  rw [hget, HashMap.get_retain]
  cases l.entries.get t with
  | none =>
      split
      · rfl
      · rfl
  | some e =>
      by_cases ht : t ∈ ts
      · simp [ht]
      · simp [ht, Option.filter]

variable [RandomSource R]

theorem agree_issue (h : Represents l c) (inv : l.Invariant n) (scope : SessionScope)
    (dataClass : DataClass) (value : Str) (now ttl : Nat)
    (few : n + (LedgerOp.issueTracked scope dataClass value now ttl).bumps < u64Max) :
    Agree (l.issueTracked scope dataClass value now ttl)
      (c.issue scope dataClass value now ttl) := by
  rw [TokenLedger.issueTracked_eq]
  unfold LruCache.issue
  split
  · exact ⟨rfl, h⟩
  split
  · exact ⟨rfl, h⟩
  split
  · exact ⟨rfl, h⟩
  rename_i hvalue hclass hfits
  have ok : TokenLedger.Issuable dataClass value now ttl :=
    ⟨hvalue, by simpa using hclass, Nat.not_lt.mp hfits⟩
  rw [LedgerOp.bumps, if_pos ok] at few
  have hopen := h.opened now
  have hfind := hopen.findReusable scope dataClass value (fun t e he => (TokenLedger.get_opened.mp he).2)
    (inv.opened now).unique
  unfold LruCache.issueRecord
  simp only [hfind]
  cases hfound : (l.opened now).findReusable scope dataClass value now with
  | none =>
      rw [TokenLedger.issueChecked_none hfound]
      refine hopen.makeRoom.insertFresh ⟨scope, dataClass, value, _, _⟩ ?_ _
      intro t e he
      exact inv.newest few (TokenLedger.get_of_get_makeRoom he)
  | some found =>
      obtain ⟨he, rfl, rfl, rfl, _⟩ := TokenLedger.findReusable_spec hfound
      rw [TokenLedger.issueChecked_some hfound]
      exact ⟨rfl, hopen.touch he fun t' e' => inv.newest few⟩

/-- The step of the simulation: an operation returns what it returns on the reference. -/
theorem agree_step (h : Represents l c) (inv : l.Invariant n) (op : LedgerOp)
    (few : n + op.bumps < u64Max) : Agree (l.result op, l.step op) (c.apply op) := by
  cases op with
  | issueTracked scope dataClass value now ttl =>
      obtain ⟨hres, hrep⟩ := agree_issue h inv scope dataClass value now ttl few
      exact ⟨congrArg LedgerResult.issued hres, hrep⟩
  | restoreExact scope t now =>
      obtain ⟨hres, hrep⟩ := agree_restore h inv few scope t now
      exact ⟨congrArg LedgerResult.restored hres, hrep⟩
  | ownsToken scope t now =>
      have hpurge := h.unexpired now
      refine ⟨congrArg LedgerResult.owned ?_, hpurge⟩
      change ((l.purgeExpired now).entries.get t).any _ = ((c.unexpired now).lookup t).any _
      rw [hpurge.lookup]
      cases he : (l.purgeExpired now).entries.get t with
      | none => rfl
      | some e =>
          change (decide (e.scope = scope) && decide (now < e.expiresAtMs)) = _
          rw [decide_eq_true (TokenLedger.get_purgeExpired.mp he).2, Bool.and_true]
          rfl
  | rollbackCreated scope ts => exact ⟨rfl, h.rollback scope ts⟩
  | clearScope scope =>
      have hdrop := h.drop fun r => r.scope = scope
      have hcount := h.drop_count fun r => r.scope = scope
      have hkept : (l.entries.retain fun _ e => !decide (e.toRecord.scope = scope))
          = l.entries.retain fun _ e => decide (e.scope ≠ scope) := by
        congr
        funext t e
        exact decide_not.symm
      rw [hkept] at hdrop hcount
      refine ⟨congrArg LedgerResult.counted ?_, hdrop⟩
      exact Nat.sub_eq_of_eq_add hcount.symm
  | clearAll =>
      have hcount := h.drop_count fun _ => true
      refine ⟨congrArg LedgerResult.counted ?_, h.drop fun _ => true⟩
      exact hcount.symm.trans (congrArg _ l.entries.size_clear)
  | entryCount now =>
      have hpurge := h.unexpired now
      exact ⟨congrArg LedgerResult.counted hpurge.length.symm, hpurge⟩

/-- The ledger refines a bounded LRU cache. In every run with fewer than `u64Max` increments each
operation returns what it returns on the reference, whatever the times and the random source. -/
theorem ledger_refines_lru {map : HashMap Token Entry} {maxEntries : Nat} {random : R}
    {start : TokenLedger R} (new : TokenLedger.withRandom map maxEntries random = .ok start)
    (ops : List LedgerOp) (few : (ops.map LedgerOp.bumps).sum < u64Max) :
    start.results ops = LruCache.results ⟨[], maxEntries, random⟩ ops := by
  have run : ∀ {l : TokenLedger R} {c : LruCache R} {n : Nat}, Represents l c → l.Invariant n →
      n + (ops.map LedgerOp.bumps).sum < u64Max → l.results ops = c.results ops := by
    clear few
    induction ops with
    | nil => intros; rfl
    | cons op ops ih =>
        intro l c n h inv few
        rw [List.map_cons, List.sum_cons] at few
        obtain ⟨hres, hrep⟩ := agree_step h inv op (by omega)
        rw [TokenLedger.results, LruCache.results, ← hres]
        exact congrArg _ (ih hrep (inv.step op) (by omega))
  refine run ?_ (.new new) ?_
  · unfold TokenLedger.withRandom at new
    split at new
    · cases new
    · cases new
      refine ⟨[], ⟨?_, .nil⟩, rfl⟩
      rw [List.length_eq_zero_iff.mp map.size_clear]
  · rw [Nat.zero_add]
    exact few

/-- A second value takes the only slot; the token of the first is then unknown. -/
def demoOps : List LedgerOp :=
  [.issueTracked demoScope .email ['a'] 0 60, .issueTracked demoScope .email ['b'] 0 60,
    .restoreExact demoScope (tokenText .email
      ((List.ofFn fun _ : Fin tokenRandomBytes => (1 : UInt8)).flatMap hexByte)) 1]

theorem ledger_refines_lru_demo :
    demoLedger.results demoOps = (⟨[], 1, ⟨0⟩⟩ : LruCache CounterRandom).results demoOps :=
  ledger_refines_lru (rfl : TokenLedger.withRandom HashMap.empty 1 _ = _) demoOps
    (by decide)

end Operations

end AgentVeil
