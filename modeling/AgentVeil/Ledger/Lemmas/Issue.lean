import AgentVeil.Ledger
import Mathlib.Logic.Relation

/-!
# What one ledger operation can do

`issueTracked` has four outcomes; every property of it is derived from `Issued`, which lists them.
The other operations are described by what they leave under each token.
-/

namespace AgentVeil

open Rust

/-! ## Tokens -/

def upperHexDigits : Str := "0123456789ABCDEF".toList

/-- A token of the class: its label and 32 upper-case hexadecimal digits. -/
def IsTokenOf (c : DataClass) (t : Token) : Prop :=
  ∃ digits : Str, digits.length = 32 ∧ (∀ d ∈ digits, d ∈ upperHexDigits) ∧ t = tokenText c digits

/-- What `generate_token` draws is a token. -/
theorem isTokenOf_drawn (c : DataClass) (drawn : Fin tokenRandomBytes → UInt8) :
    IsTokenOf c (tokenText c ((List.ofFn drawn).flatMap hexByte)) := by
  have htwo : ∀ l : List UInt8, (l.flatMap hexByte).length = 2 * l.length := fun l => by
    simp [hexByte, List.length_flatMap, Nat.mul_comm]
  have hdigit : ∀ n < 16, hexDigit n ∈ upperHexDigits := by decide
  refine ⟨_, ?_, fun d hd => ?_, rfl⟩
  · rw [htwo, List.length_ofFn]
    rfl
  · obtain ⟨b, _, hb⟩ := List.mem_flatMap.mp hd
    have := b.toNat_lt
    simp only [hexByte, List.mem_cons, List.not_mem_nil, or_false] at hb
    rcases hb with rfl | rfl
    · exact hdigit _ (by omega)
    · exact hdigit _ (by omega)

namespace TokenLedger

variable {R : Type}

/-! ## Purging and eviction -/

@[simp] theorem purgeExpired_sequence (l : TokenLedger R) (now : Nat) :
    (l.purgeExpired now).sequence = l.sequence := rfl
@[simp] theorem purgeExpired_maxEntries (l : TokenLedger R) (now : Nat) :
    (l.purgeExpired now).maxEntries = l.maxEntries := rfl
@[simp] theorem bump_entries (l : TokenLedger R) : l.bump.entries = l.entries := rfl
@[simp] theorem bump_maxEntries (l : TokenLedger R) : l.bump.maxEntries = l.maxEntries := rfl

theorem get_purgeExpired {l : TokenLedger R} {now : Nat} {t : Token} {e : Entry} :
    (l.purgeExpired now).entries.get t = some e ↔
      l.entries.get t = some e ∧ now < e.expiresAtMs := by
  simp [purgeExpired, Option.filter_eq_some_iff]

theorem victim_spec {l : TokenLedger R} {t : Token} (h : l.victim = some t) :
    ∃ e, l.entries.get t = some e ∧
      ∀ t' e', l.entries.get t' = some e' → e.lastUsedSequence ≤ e'.lastUsedSequence := by
  obtain ⟨⟨t, e⟩, hm, rfl⟩ := Option.map_eq_some_iff.mp h
  obtain ⟨hmem, hmin⟩ := minByKey_spec hm
  refine ⟨e, HashMap.get_eq_some_iff.mpr (HashMap.mem_iter.mp hmem), fun t' e' he => ?_⟩
  exact hmin (t', e') (HashMap.mem_iter.mpr (HashMap.get_eq_some_iff.mp he))

theorem victim_eq_none {l : TokenLedger R} (h : l.victim = none) : l.entries.entries = [] := by
  have := minByKey_eq_none (Option.map_eq_none_iff.mp h)
  have hp := l.entries.order_perm l.entries.entries
  rw [show l.entries.order l.entries.entries = [] from this] at hp
  exact hp.nil_eq.symm

/-- The token evicted to make room, if any. -/
def evicted (l : TokenLedger R) : Option Token :=
  if l.entries.size ≥ l.maxEntries then l.victim else none

theorem makeRoom_eq (l : TokenLedger R) :
    l.makeRoom = match l.evicted with
      | none => l
      | some t => { l with entries := l.entries.remove t } := by
  unfold makeRoom evicted evictLru
  split
  · rfl
  · rfl

@[simp] theorem makeRoom_sequence (l : TokenLedger R) : l.makeRoom.sequence = l.sequence := by
  rw [makeRoom_eq]; split <;> rfl

@[simp] theorem makeRoom_maxEntries (l : TokenLedger R) :
    l.makeRoom.maxEntries = l.maxEntries := by
  rw [makeRoom_eq]; split <;> rfl

@[simp] theorem makeRoom_random (l : TokenLedger R) : l.makeRoom.random = l.random := by
  rw [makeRoom_eq]; split <;> rfl

theorem get_makeRoom {l : TokenLedger R} {t : Token} :
    l.makeRoom.entries.get t = if l.evicted = some t then none else l.entries.get t := by
  rw [makeRoom_eq]
  cases h : l.evicted with
  | none => rfl
  | some t' =>
      simp only [HashMap.get_remove, Option.some.injEq]
      by_cases ht : t = t'
      · subst ht; simp
      · simp [ht, Ne.symm ht]

theorem get_of_get_makeRoom {l : TokenLedger R} {t : Token} {e : Entry}
    (h : l.makeRoom.entries.get t = some e) : l.entries.get t = some e := by
  rw [get_makeRoom] at h
  split at h
  · cases h
  · exact h

theorem findReusable_spec {l : TokenLedger R} {scope : SessionScope} {c : DataClass} {v : Str}
    {now : Nat} {t : Token} {e : Entry} (h : l.findReusable scope c v now = some (t, e)) :
    l.entries.get t = some e ∧ e.scope = scope ∧ e.dataClass = c ∧ e.value = v ∧
      now < e.expiresAtMs := by
  have hmem := List.mem_of_find?_eq_some h
  have hp := List.find?_some h
  simp only [Bool.and_eq_true, decide_eq_true_eq] at hp
  exact ⟨HashMap.get_eq_some_iff.mpr (HashMap.mem_iter.mp hmem), hp.1.1.1, hp.1.1.2, hp.1.2, hp.2⟩

theorem findReusable_eq_none {l : TokenLedger R} {scope : SessionScope} {c : DataClass} {v : Str}
    {now : Nat} (h : l.findReusable scope c v now = none) {t : Token} {e : Entry}
    (he : l.entries.get t = some e) :
    ¬(e.scope = scope ∧ e.dataClass = c ∧ e.value = v ∧ now < e.expiresAtMs) := by
  have := List.find?_eq_none.mp h (t, e)
    (HashMap.mem_iter.mpr (HashMap.get_eq_some_iff.mp he))
  rintro ⟨h₁, h₂, h₃, h₄⟩
  simp [h₁, h₂, h₃, h₄] at this

/-! ## Rollback -/

theorem get_rollbackOne (l : TokenLedger R) (scope : SessionScope) (t t' : Token) :
    (rollbackOne scope l t).entries.get t'
      = if t' = t then (l.entries.get t').filter (·.scope ≠ scope) else l.entries.get t' := by
  unfold rollbackOne
  by_cases ht : t' = t
  · subst ht
    rw [if_pos rfl]
    cases hg : l.entries.get t' with
    | none => simp [hg]
    | some e =>
        by_cases hs : e.scope = scope
        · simp [hs, HashMap.get_remove, Option.filter]
        · simp [hs, hg, Option.filter]
  · rw [if_neg ht]
    split
    · simp [HashMap.get_remove, ht]
    · rfl

/-- A rollback changes nothing but the entries. -/
theorem rollbackCreated_eq (l : TokenLedger R) (scope : SessionScope) (ts : List Token) :
    ∃ entries, l.rollbackCreated scope ts = { l with entries } := by
  induction ts generalizing l with
  | nil => exact ⟨l.entries, rfl⟩
  | cons t ts ih =>
      have hone : ∃ entries, rollbackOne scope l t = { l with entries } := by
        unfold rollbackOne
        split
        · exact ⟨_, rfl⟩
        · exact ⟨l.entries, rfl⟩
      obtain ⟨entries, hone⟩ := hone
      obtain ⟨entries', h⟩ := ih { l with entries }
      refine ⟨entries', ?_⟩
      rw [← h, ← hone]
      rfl

/-- A rollback removes the entries of the scope under the given tokens. -/
theorem get_rollbackCreated (l : TokenLedger R) (scope : SessionScope) (ts : List Token)
    (t : Token) : (l.rollbackCreated scope ts).entries.get t
      = if t ∈ ts then (l.entries.get t).filter (·.scope ≠ scope) else l.entries.get t := by
  induction ts generalizing l with
  | nil => rfl
  | cons t' ts ih =>
      have hstep : l.rollbackCreated scope (t' :: ts)
          = (rollbackOne scope l t').rollbackCreated scope ts := rfl
      rw [hstep, ih, get_rollbackOne]
      by_cases ht : t = t'
      · subst ht
        simp [Option.filter_filter]
      · simp [ht]

/-! ## Issuing -/

/-- The ledger that `issueChecked` works on. -/
def opened (l : TokenLedger R) (now : Nat) : TokenLedger R := (l.purgeExpired now).bump

theorem restoreExact_none {l : TokenLedger R} {scope : SessionScope} {t : Token} {now : Nat}
    (h : (l.opened now).entries.get t = none) :
    l.restoreExact scope t now = (none, l.opened now) := by
  have h : (l.purgeExpired now).bump.entries.get t = none := h
  simp only [restoreExact, h]
  rfl

theorem restoreExact_some {l : TokenLedger R} {scope : SessionScope} {t : Token} {now : Nat}
    {e : Entry} (h : (l.opened now).entries.get t = some e) :
    l.restoreExact scope t now =
      if e.scope ≠ scope ∨ e.expiresAtMs ≤ now then (none, l.opened now)
      else
        (some e.value,
          { l.opened now with
            entries := (l.opened now).entries.modify t fun e =>
              { e with lastUsedSequence := (l.opened now).sequence } }) := by
  have h : (l.purgeExpired now).bump.entries.get t = some e := h
  simp only [restoreExact, h]
  rfl

theorem get_opened {l : TokenLedger R} {now : Nat} {t : Token} {e : Entry} :
    (l.opened now).entries.get t = some e ↔ l.entries.get t = some e ∧ now < e.expiresAtMs :=
  get_purgeExpired

/-- The preconditions of `issueTracked`. -/
def Issuable (c : DataClass) (v : Str) (now ttl : Nat) : Prop :=
  v ≠ [] ∧ c.hardBlock = false ∧ now + ttl * 1000 ≤ u64Max

instance (c : DataClass) (v : Str) (now ttl : Nat) : Decidable (Issuable c v now ttl) :=
  inferInstanceAs (Decidable (_ ∧ _ ∧ _))

variable [RandomSource R]

/-- The overflow checks come to one. -/
theorem issueTracked_eq (l : TokenLedger R) (scope : SessionScope) (c : DataClass) (v : Str)
    (now ttl : Nat) : l.issueTracked scope c v now ttl =
      if v = [] then (.error .emptyValue, l)
      else if c.hardBlock then (.error (.nonRestorableClass c), l)
      else if now + ttl * 1000 > u64Max then (.error .expiryOverflow, l)
      else l.issueChecked scope c v now (now + ttl * 1000) := by
  unfold issueTracked checkedU64
  by_cases hfits : now + ttl * 1000 > u64Max
  · by_cases httl : ttl * 1000 ≤ u64Max
    · simp only [if_pos httl, if_pos hfits, if_neg (Nat.not_le.mpr hfits)]
    · simp only [if_neg httl, if_pos hfits]
  · have httl : ttl * 1000 ≤ u64Max := by omega
    simp only [if_pos httl, if_neg hfits, if_pos (Nat.not_lt.mp hfits)]

theorem issueChecked_some {l : TokenLedger R} {scope : SessionScope} {c : DataClass} {v : Str}
    {now expiresAtMs : Nat} {t : Token} {e : Entry}
    (h : (l.opened now).findReusable scope c v now = some (t, e)) :
    l.issueChecked scope c v now expiresAtMs = (.ok ⟨t, false⟩,
      { l.opened now with
        entries := (l.opened now).entries.modify t fun e =>
          { e with lastUsedSequence := (l.opened now).sequence, expiresAtMs } }) := by
  have h : (l.purgeExpired now).bump.findReusable scope c v now = some (t, e) := h
  simp only [issueChecked, h]
  rfl

theorem issueChecked_none {l : TokenLedger R} {scope : SessionScope} {c : DataClass} {v : Str}
    {now expiresAtMs : Nat} (h : (l.opened now).findReusable scope c v now = none) :
    l.issueChecked scope c v now expiresAtMs =
      insertFresh ⟨scope, c, v, expiresAtMs, (l.opened now).sequence⟩ maxTokenAttempts
        (l.opened now).makeRoom := by
  have h : (l.purgeExpired now).bump.findReusable scope c v now = none := h
  simp only [issueChecked, h]
  rfl

/-- The outcomes of `issueTracked`, with the ledger each leaves behind. -/
inductive Issued (l : TokenLedger R) (scope : SessionScope) (c : DataClass) (v : Str)
    (now ttl : Nat) : Except LedgerError IssuedToken → TokenLedger R → Prop where
  /-- A precondition fails and nothing changes. -/
  | rejected {e} (no : ¬Issuable c v now ttl) :
      Issued l scope c v now ttl (.error e) l
  /-- A live entry for the same value is refreshed. -/
  | reused {t e} (ok : Issuable c v now ttl)
      (found : (l.opened now).findReusable scope c v now = some (t, e)) :
      Issued l scope c v now ttl (.ok ⟨t, false⟩)
        { l.opened now with
          entries := (l.opened now).entries.modify t fun e =>
            { e with lastUsedSequence := (l.opened now).sequence,
                     expiresAtMs := now + ttl * 1000 } }
  /-- A new entry is inserted, after an eviction when the ledger is full. -/
  | created {encoded random} (ok : Issuable c v now ttl)
      (missing : (l.opened now).findReusable scope c v now = none)
      (shape : ∃ bytes : Fin tokenRandomBytes → UInt8, encoded = (List.ofFn bytes).flatMap hexByte)
      (fresh : (l.opened now).makeRoom.entries.get (tokenText c encoded) = none) :
      Issued l scope c v now ttl (.ok ⟨tokenText c encoded, true⟩)
        { (l.opened now).makeRoom with
          random
          entries := (l.opened now).makeRoom.entries.insert (tokenText c encoded)
            ⟨scope, c, v, now + ttl * 1000, (l.opened now).sequence⟩ }
  /-- No token could be drawn; the eviction has happened. -/
  | failed {e random} (ok : Issuable c v now ttl)
      (missing : (l.opened now).findReusable scope c v now = none) :
      Issued l scope c v now ttl (.error e) { (l.opened now).makeRoom with random }

/-- The loop either inserts under a fresh token or only consumes random bytes. -/
theorem insertFresh_spec (entry : Entry) (n : Nat) (l : TokenLedger R) :
    (∃ e random, l.insertFresh entry n = (.error e, { l with random })) ∨
    (∃ (bytes : Fin tokenRandomBytes → UInt8) (random : R),
      l.entries.get (tokenText entry.dataClass ((List.ofFn bytes).flatMap hexByte)) = none ∧
      l.insertFresh entry n =
        (.ok ⟨tokenText entry.dataClass ((List.ofFn bytes).flatMap hexByte), true⟩,
          { l with
            random
            entries := l.entries.insert
              (tokenText entry.dataClass ((List.ofFn bytes).flatMap hexByte)) entry })) := by
  induction n generalizing l with
  | zero => exact .inl ⟨.tokenCollision, l.random, rfl⟩
  | succ n ih =>
      simp only [insertFresh, generateToken]
      rcases hf : RandomSource.fill l.random with ⟨e | bytes, random⟩
      · exact .inl ⟨e, random, rfl⟩
      · simp only
        split
        · exact ih { l with random }
        · rename_i hfree
          exact .inr ⟨bytes, random, by simpa [HashMap.containsKey] using hfree, rfl⟩

theorem issueTracked_issued (l : TokenLedger R) (scope : SessionScope) (c : DataClass) (v : Str)
    (now ttl : Nat) :
    Issued l scope c v now ttl (l.issueTracked scope c v now ttl).1
      (l.issueTracked scope c v now ttl).2 := by
  rw [issueTracked_eq]
  split
  · exact .rejected fun h => h.1 ‹_›
  rename_i hv
  split
  · rename_i hc
    exact .rejected fun h => absurd (hc.symm.trans h.2.1) (by decide)
  rename_i hc
  split
  · rename_i hover
    exact .rejected fun h => absurd h.2.2 (Nat.not_le.mpr hover)
  rename_i hfits
  have ok : Issuable c v now ttl := ⟨hv, by simpa using hc, Nat.not_lt.mp hfits⟩
  unfold issueChecked
  simp only
  split
  · rename_i t e hfound
    exact .reused ok hfound
  · rename_i hnone
    rcases insertFresh_spec ⟨scope, c, v, now + ttl * 1000, (l.opened now).sequence⟩
      maxTokenAttempts (l.opened now).makeRoom with ⟨e, random, he⟩ | ⟨bytes, random, hf, he⟩
    · exact he ▸ .failed ok hnone
    · exact he ▸ .created ok hnone ⟨bytes, rfl⟩ hf

/-- What draws make of the source. -/
abbrev Draws : R → R → Prop := Relation.ReflTransGen fun r r' => (RandomSource.fill r).2 = r'

theorem insertFresh_error {entry : Entry} {n : Nat} {l l' : TokenLedger R} {e : LedgerError}
    (h : l.insertFresh entry n = (.error e, l')) :
    e = .tokenCollision ∨ ∃ r, Draws l.random r ∧ RandomSource.fill r = (.error e, l'.random) := by
  induction n generalizing l with
  | zero =>
      obtain ⟨⟨⟩, rfl⟩ := Prod.mk.inj h
      exact .inl rfl
  | succ n ih =>
      unfold insertFresh generateToken at h
      cases hfill : RandomSource.fill l.random with
      | mk result random =>
          rw [hfill] at h
          cases result with
          | error e' =>
              obtain ⟨⟨⟩, rfl⟩ := Prod.mk.inj h
              exact .inr ⟨l.random, .refl, hfill⟩
          | ok bytes =>
              simp only at h
              split at h
              · refine (ih h).imp id ?_
                rintro ⟨r, hdraws, hr⟩
                exact ⟨r, .head (by rw [hfill]) hdraws, hr⟩
              · cases h

theorem draws_insertFresh (entry : Entry) (n : Nat) (l : TokenLedger R) :
    Draws l.random (l.insertFresh entry n).2.random := by
  induction n generalizing l with
  | zero => exact .refl
  | succ n ih =>
      unfold insertFresh generateToken
      cases hfill : RandomSource.fill l.random with
      | mk result random =>
          have hone : Draws l.random random := .single (by rw [hfill])
          cases result with
          | error e => exact hone
          | ok bytes =>
              simp only
              split
              · exact hone.trans (ih { l with random })
              · exact hone

theorem draws_issueTracked (l : TokenLedger R) (scope : SessionScope) (c : DataClass) (v : Str)
    (now ttl : Nat) : Draws l.random (l.issueTracked scope c v now ttl).2.random := by
  rw [issueTracked_eq]
  split
  · exact .refl
  split
  · exact .refl
  split
  · exact .refl
  unfold issueChecked
  simp only
  split
  · exact .refl
  · have h := draws_insertFresh ⟨scope, c, v, now + ttl * 1000, (l.opened now).sequence⟩
      maxTokenAttempts (l.opened now).makeRoom
    rw [makeRoom_random] at h
    exact h

/-- Why nothing is issued: a precondition fails, no token is free, or the source fails and its error
is passed on. -/
theorem issueTracked_error {l l' : TokenLedger R} {scope : SessionScope} {c : DataClass} {v : Str}
    {now ttl : Nat} {e : LedgerError} (h : l.issueTracked scope c v now ttl = (.error e, l')) :
    (v = [] ∧ e = .emptyValue) ∨ (c.hardBlock = true ∧ e = .nonRestorableClass c) ∨
      e = .expiryOverflow ∨ e = .tokenCollision ∨
      ∃ r, Draws l.random r ∧ RandomSource.fill r = (.error e, l'.random) := by
  rw [issueTracked_eq] at h
  split at h
  · obtain ⟨⟨⟩, _⟩ := Prod.mk.inj h
    exact .inl ⟨‹_›, rfl⟩
  split at h
  · obtain ⟨⟨⟩, _⟩ := Prod.mk.inj h
    exact .inr (.inl ⟨‹_›, rfl⟩)
  split at h
  · obtain ⟨⟨⟩, _⟩ := Prod.mk.inj h
    exact .inr (.inr (.inl rfl))
  unfold issueChecked at h
  simp only at h
  split at h
  · cases h
  · refine .inr (.inr (.inr ((insertFresh_error h).imp id ?_)))
    rintro ⟨r, hdraws, hr⟩
    rw [makeRoom_random] at hdraws
    exact ⟨r, hdraws, hr⟩

end TokenLedger

end AgentVeil
