import AgentVeil.Ledger.Theorems

/-!
# What holds of every ledger

The representation invariant of the ledger, over runs with any times and any random source. A step
either keeps some of the entries or puts one entry under one token, so two lemmas carry it.
-/

namespace AgentVeil

open Rust

/-- How often an operation increments the sequence. -/
def LedgerOp.bumps : LedgerOp → Nat
  | issueTracked _ c v now ttl => if TokenLedger.Issuable c v now ttl then 1 else 0
  | restoreExact .. => 1
  | rollbackCreated .. | ownsToken .. | clearScope _ | clearAll | entryCount _ => 0

/-- The ledgers that operations at any times reach from `start`, with the number of increments. -/
inductive Reaches {R : Type} [RandomSource R] (start : TokenLedger R) :
    Nat → TokenLedger R → Prop where
  | start : Reaches start 0 start
  | step {n l} (op : LedgerOp) (run : Reaches start n l) :
      Reaches start (n + op.bumps) (l.step op)

namespace TokenLedger

variable {R : Type}

/-- The invariant of a ledger whose sequence was incremented `n` times. -/
structure Invariant (n : Nat) (l : TokenLedger R) : Prop where
  positive : 0 < l.maxEntries
  capacity : l.entries.size ≤ l.maxEntries
  sequence : l.sequence = min n u64Max
  key {t e} : l.entries.get t = some e → IsTokenOf e.dataClass t
  restorable {t e} : l.entries.get t = some e → e.dataClass.hardBlock = false
  nonempty {t e} : l.entries.get t = some e → e.value ≠ []
  unique {t t' e e'} : l.entries.get t = some e → l.entries.get t' = some e' →
    e.scope = e'.scope → e.dataClass = e'.dataClass → e.value = e'.value → t = t'
  used {t e} : l.entries.get t = some e → e.lastUsedSequence ≤ l.sequence
  distinct {t t' e e'} : n < u64Max → l.entries.get t = some e → l.entries.get t' = some e' →
    e.lastUsedSequence = e'.lastUsedSequence → t = t'

namespace Invariant

variable {n m : Nat} {l l' : TokenLedger R}

theorem new {map : HashMap Token Entry} {maxEntries : Nat} {random : R} {start : TokenLedger R}
    (h : withRandom map maxEntries random = .ok start) : Invariant 0 start := by
  unfold withRandom at h
  split at h
  · cases h
  · rename_i hmax
    obtain ⟨rfl⟩ := h
    have hnone : ∀ {t e}, map.clear.get t ≠ some e := fun h => by simp at h
    have hpos : 0 < maxEntries := by omega
    exact ⟨hpos, map.size_clear ▸ Nat.zero_le maxEntries, rfl, fun h => absurd h hnone, fun h => absurd h hnone,
      fun h => absurd h hnone, fun h => absurd h hnone, fun h => absurd h hnone,
      fun _ h => absurd h hnone⟩

/-- Entries may go and the sequence may advance. -/
theorem restrict (inv : Invariant n l) (le : n ≤ m) (hmax : l'.maxEntries = l.maxEntries)
    (hseq : l'.sequence = min m u64Max)
    (sub : ∀ t e, l'.entries.get t = some e → l.entries.get t = some e) : Invariant m l' where
  positive := hmax ▸ inv.positive
  capacity := by
    rw [hmax]
    exact Nat.le_trans (HashMap.size_le_of_get sub) inv.capacity
  sequence := hseq
  key h := inv.key (sub _ _ h)
  restorable h := inv.restorable (sub _ _ h)
  nonempty h := inv.nonempty (sub _ _ h)
  unique h h' := inv.unique (sub _ _ h) (sub _ _ h')
  used h := by
    have := inv.used (sub _ _ h)
    rw [inv.sequence] at this
    omega
  distinct hm h h' := inv.distinct (by omega) (sub _ _ h) (sub _ _ h')

/-- One entry is put under one token, with the sequence just incremented. -/
theorem put {t : Token} {e : Entry} (inv : Invariant (n + 1) l)
    (older : ∀ {t' e'}, l.entries.get t' = some e' → e'.lastUsedSequence ≤ n)
    (hmax : l'.maxEntries = l.maxEntries) (hseq : l'.sequence = l.sequence)
    (hsize : l'.entries.size ≤ l.maxEntries)
    (hget : ∀ t', l'.entries.get t' = if t' = t then some e else l.entries.get t')
    (key : IsTokenOf e.dataClass t) (restorable : e.dataClass.hardBlock = false)
    (nonempty : e.value ≠ []) (hused : e.lastUsedSequence = l.sequence)
    (alone : ∀ t' e', l.entries.get t' = some e' → e.scope = e'.scope →
      e.dataClass = e'.dataClass → e.value = e'.value → t' = t) : Invariant (n + 1) l' := by
  have split : ∀ {t' e'}, l'.entries.get t' = some e' →
      (t' = t ∧ e' = e) ∨ (t' ≠ t ∧ l.entries.get t' = some e') := by
    intro t' e' h
    rw [hget] at h
    by_cases ht : t' = t
    · rw [if_pos ht, Option.some.injEq] at h
      exact .inl ⟨ht, h.symm⟩
    · rw [if_neg ht] at h
      exact .inr ⟨ht, h⟩
  constructor
  case positive => exact hmax ▸ inv.positive
  case capacity => exact hmax ▸ hsize
  case sequence => exact hseq.trans inv.sequence
  case key =>
    intro t' e' h
    rcases split h with ⟨rfl, rfl⟩ | ⟨_, h⟩
    · exact key
    · exact inv.key h
  case restorable =>
    intro t' e' h
    rcases split h with ⟨rfl, rfl⟩ | ⟨_, h⟩
    · exact restorable
    · exact inv.restorable h
  case nonempty =>
    intro t' e' h
    rcases split h with ⟨rfl, rfl⟩ | ⟨_, h⟩
    · exact nonempty
    · exact inv.nonempty h
  case unique =>
    intro t₁ t₂ e₁ e₂ h₁ h₂ hs hc hv
    rcases split h₁ with ⟨rfl, rfl⟩ | ⟨_, h₁⟩
    · rcases split h₂ with ⟨rfl, _⟩ | ⟨_, h₂⟩
      · rfl
      · exact (alone _ _ h₂ hs hc hv).symm
    · rcases split h₂ with ⟨rfl, rfl⟩ | ⟨_, h₂⟩
      · exact alone _ _ h₁ hs.symm hc.symm hv.symm
      · exact inv.unique h₁ h₂ hs hc hv
  case used =>
    intro t' e' h
    rw [hseq]
    rcases split h with ⟨rfl, rfl⟩ | ⟨_, h⟩
    · exact Nat.le_of_eq hused
    · exact inv.used h
  case distinct =>
    -- Below saturation the new sequence is above every other one.
    intro t₁ t₂ e₁ e₂ hn h₁ h₂ he
    have hfresh : e.lastUsedSequence = n + 1 := by
      rw [hused, inv.sequence, Nat.min_eq_left (Nat.le_of_lt hn)]
    rcases split h₁ with ⟨rfl, rfl⟩ | ⟨_, h₁⟩
    · rcases split h₂ with ⟨rfl, _⟩ | ⟨_, h₂⟩
      · rfl
      · have := older h₂
        omega
    · rcases split h₂ with ⟨rfl, rfl⟩ | ⟨_, h₂⟩
      · have := older h₁
        omega
      · exact inv.distinct hn h₁ h₂ he

theorem opened (inv : Invariant n l) (now : Nat) : Invariant (n + 1) (l.opened now) := by
  refine inv.restrict (Nat.le_succ n) rfl ?_ fun t e h => (get_opened.mp h).1
  change min (l.sequence + 1) u64Max = _
  rw [inv.sequence]
  omega

theorem older (inv : Invariant n l) {t : Token} {e : Entry} (h : l.entries.get t = some e) :
    e.lastUsedSequence ≤ n := by
  have := inv.used h
  rw [inv.sequence] at this
  omega

/-- An entry is used: its sequence becomes the one just drawn, and `f` may change its expiry. -/
theorem touch (inv : Invariant n l) {now : Nat} {t : Token} {e : Entry} {f : Entry → Entry}
    (he : (l.opened now).entries.get t = some e) (hscope : (f e).scope = e.scope)
    (hclass : (f e).dataClass = e.dataClass) (hvalue : (f e).value = e.value)
    (hused : (f e).lastUsedSequence = (l.opened now).sequence) :
    Invariant (n + 1) { l.opened now with entries := (l.opened now).entries.modify t f } := by
  have hopen := inv.opened now
  apply hopen.put (t := t) (e := f e) fun h => inv.older (get_opened.mp h).1
  · rfl
  · rfl
  · rw [HashMap.size_modify]
    exact hopen.capacity
  · intro t'
    rw [HashMap.get_modify]
    split
    · rename_i ht
      rw [ht, he]
      rfl
    · rfl
  · rw [hclass]
    exact hopen.key he
  · rw [hclass]
    exact hopen.restorable he
  · rw [hvalue]
    exact hopen.nonempty he
  · exact hused
  · intro t' e' h' hs hc hv
    exact hopen.unique h' he (hs.symm.trans hscope) (hc.symm.trans hclass) (hv.symm.trans hvalue)

/-- After an eviction there is room for one entry. -/
theorem size_makeRoom (inv : Invariant n l) : l.makeRoom.entries.size < l.maxEntries := by
  unfold makeRoom
  split
  · rename_i hfull
    unfold evictLru
    cases hv : l.victim with
    | none =>
        have hempty := victim_eq_none hv
        simp only [HashMap.size, hempty, List.length_nil]
        exact inv.positive
    | some t =>
        obtain ⟨e, he, _⟩ := victim_spec hv
        exact Nat.lt_of_lt_of_le (HashMap.size_remove_lt he) inv.capacity
  · omega

theorem makeRoom (inv : Invariant n l) : Invariant n l.makeRoom :=
  inv.restrict (Nat.le_refl n) (makeRoom_maxEntries l) ((makeRoom_sequence l).trans inv.sequence)
    fun _ _ => get_of_get_makeRoom

/-- The invariant does not look at the random source. -/
theorem random (inv : Invariant n l) (random : R) : Invariant n { l with random } :=
  inv.restrict (Nat.le_refl n) rfl inv.sequence fun _ _ h => h

/-- The invariant after each outcome of an issue. -/
theorem issued (inv : Invariant n l) {scope : SessionScope} {c : DataClass} {v : Str}
    {now ttl : Nat} {result : Except LedgerError IssuedToken}
    (h : Issued l scope c v now ttl result l') :
    Invariant (n + (LedgerOp.issueTracked scope c v now ttl).bumps) l' := by
  have hopen := inv.opened now
  cases h with
  | rejected no =>
      simp only [LedgerOp.bumps, if_neg no]
      exact inv
  | reused ok found =>
      simp only [LedgerOp.bumps, if_pos ok]
      exact inv.touch (findReusable_spec found).1 rfl rfl rfl rfl
  | failed ok =>
      simp only [LedgerOp.bumps, if_pos ok]
      exact hopen.makeRoom.random _
  | created ok missing shape fresh =>
      simp only [LedgerOp.bumps, if_pos ok]
      obtain ⟨bytes, rfl⟩ := shape
      have hroom := hopen.size_makeRoom
      have older : ∀ {t e}, (l.opened now).makeRoom.entries.get t = some e →
          e.lastUsedSequence ≤ n :=
        fun h => inv.older (get_opened.mp (get_of_get_makeRoom h)).1
      refine hopen.makeRoom.put older rfl rfl ?_ (HashMap.get_insert _ _ · _) ?_ ?_ ?_ ?_ ?_
      · rw [HashMap.size_insert_of_notMem _ _ fresh, makeRoom_maxEntries]
        exact hroom
      · exact isTokenOf_drawn c bytes
      · exact ok.2.1
      · exact ok.1
      · exact (makeRoom_sequence _).symm
      · -- The entry would have been found.
        intro t' e' h hs hc hv
        have h' := get_of_get_makeRoom h
        exact absurd ⟨hs.symm, hc.symm, hv.symm, (get_opened.mp h').2⟩
          (findReusable_eq_none missing h')

theorem restored (inv : Invariant n l) (scope : SessionScope) (t : Token) (now : Nat) :
    Invariant (n + 1) (l.restoreExact scope t now).2 := by
  cases he : (l.opened now).entries.get t with
  | none =>
      rw [restoreExact_none he]
      exact inv.opened now
  | some e =>
      rw [restoreExact_some he]
      split
      · exact inv.opened now
      · exact inv.touch he rfl rfl rfl rfl

variable [RandomSource R]

theorem step (inv : Invariant n l) (op : LedgerOp) : Invariant (n + op.bumps) (l.step op) := by
  have kept : ∀ {l' : TokenLedger R}, l'.maxEntries = l.maxEntries → l'.sequence = l.sequence →
      (∀ t e, l'.entries.get t = some e → l.entries.get t = some e) → Invariant n l' :=
    fun hmax hseq => inv.restrict (Nat.le_refl n) hmax (hseq.trans inv.sequence)
  cases op with
  | issueTracked scope c v now ttl => exact inv.issued (l.issueTracked_issued scope c v now ttl)
  | restoreExact scope t now => exact inv.restored scope t now
  | rollbackCreated scope ts =>
      obtain ⟨entries, h⟩ := l.rollbackCreated_eq scope ts
      apply kept
      · rw [TokenLedger.step, h]
      · rw [TokenLedger.step, h]
      · intro t e he
        rw [TokenLedger.step, get_rollbackCreated] at he
        split at he
        · exact (Option.filter_eq_some_iff.mp he).1
        · exact he
  | ownsToken scope t now => exact kept rfl rfl fun t e he => (get_purgeExpired.mp he).1
  | entryCount now => exact kept rfl rfl fun t e he => (get_purgeExpired.mp he).1
  | clearScope scope =>
      refine kept rfl rfl fun t e he => ?_
      rw [TokenLedger.step, clearScope, HashMap.get_retain] at he
      exact (Option.filter_eq_some_iff.mp he).1
  | clearAll =>
      refine kept rfl rfl fun t e he => ?_
      rw [TokenLedger.step, clearAll, HashMap.get_clear] at he
      cases he

end Invariant

/-- The token an issue returns stands for what was asked. -/
theorem Issued.stands {l l' : TokenLedger R} {scope : SessionScope} {c : DataClass} {v : Str}
    {now ttl : Nat} {issued : IssuedToken} (h : Issued l scope c v now ttl (.ok issued) l') :
    ∃ e, l'.entries.get issued.token = some e ∧ e.scope = scope ∧ e.dataClass = c ∧
      e.value = v := by
  cases h with
  | reused ok found =>
      obtain ⟨he, hs, hc, hv, _⟩ := findReusable_spec found
      rw [HashMap.get_modify, if_pos rfl, he]
      exact ⟨_, rfl, hs, hc, hv⟩
  | created =>
      rw [HashMap.get_insert, if_pos rfl]
      exact ⟨_, rfl, rfl, rfl, rfl⟩

end TokenLedger

variable {R : Type} [RandomSource R]

theorem Reaches.invariant {start l : TokenLedger R} {n : Nat} (h : Reaches start n l)
    (inv : start.Invariant 0) : l.Invariant n := by
  induction h with
  | start => exact inv
  | step op _ ih => exact ih.step op

/-- Every ledger that any operations reach, at any times and with any random source, keeps the
invariant, and an issue on it returns a token that stands for the scope, class and value asked. -/
theorem ledger_invariants {map : HashMap Token Entry} {maxEntries : Nat} {random : R}
    {start l : TokenLedger R} {n : Nat}
    (new : TokenLedger.withRandom map maxEntries random = .ok start) (h : Reaches start n l) :
    l.Invariant n ∧ ∀ scope c v now ttl issued,
      (l.issueTracked scope c v now ttl).1 = .ok issued →
      ∃ e, (l.issueTracked scope c v now ttl).2.entries.get issued.token = some e ∧
        e.scope = scope ∧ e.dataClass = c ∧ e.value = v := by
  refine ⟨h.invariant (.new new), fun scope c v now ttl issued hok => ?_⟩
  have hi := l.issueTracked_issued scope c v now ttl
  rw [hok] at hi
  exact hi.stands

/-- Two issues at the same time into a ledger of one entry. -/
theorem ledger_invariants_demo :
    ((demoLedger.step (.issueTracked demoScope .email ['a'] 0 60)).step
      (.issueTracked demoScope .email ['b'] 0 60)).Invariant 2 := by
  have h := Reaches.step (.issueTracked demoScope .email ['b'] 0 60)
    (Reaches.step (.issueTracked demoScope .email ['a'] 0 60) (@Reaches.start _ _ demoLedger))
  exact (ledger_invariants (rfl : TokenLedger.withRandom HashMap.empty 1 _ = _) h).1

end AgentVeil
