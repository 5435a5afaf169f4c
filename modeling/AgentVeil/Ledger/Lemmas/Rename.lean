import AgentVeil.Ledger.Lemmas.Issue

/-!
# Renaming the values of a session

The ledger compares the values of a session and never looks into them: it does the same with other
values that are equal when the values are.
-/

namespace AgentVeil

open Rust

variable {R : Type} {φ : DataClass → Str → Str} {scope : SessionScope} {now : Nat}

/-- The entry with another value, if it is one of the session. -/
def Entry.rename (φ : DataClass → Str → Str) (scope : SessionScope) (e : Entry) : Entry :=
  { e with value := if e.scope = scope then φ e.dataClass e.value else e.value }

theorem Entry.rename_eq_self {e : Entry} (h : e.scope = scope → φ e.dataClass e.value = e.value) :
    e.rename φ scope = e := by
  have hvalue : (if e.scope = scope then φ e.dataClass e.value else e.value) = e.value := by
    split
    · exact h ‹_›
    · rfl
  rw [Entry.rename, hvalue]

namespace TokenLedger

/-- The ledger with other values for the entries of the session. -/
def rename (φ : DataClass → Str → Str) (scope : SessionScope) (l : TokenLedger R) : TokenLedger R :=
  { l with entries := l.entries.mapValues (Entry.rename φ scope) }

theorem purgeExpired_rename (l : TokenLedger R) (now : Nat) :
    (l.rename φ scope).purgeExpired now = (l.purgeExpired now).rename φ scope := by
  have h := HashMap.retain_mapValues (m := l.entries) (f := Entry.rename φ scope)
    (p := fun _ e => now < e.expiresAtMs) fun _ _ => rfl
  simp only [purgeExpired, rename, h]

theorem bump_rename (l : TokenLedger R) : (l.rename φ scope).bump = l.bump.rename φ scope := rfl

theorem victim_rename (l : TokenLedger R) : (l.rename φ scope).victim = l.victim := by
  simp only [victim, rename, HashMap.iter_mapValues, minByKey_map, Option.map_map]
  rfl

theorem evicted_rename (l : TokenLedger R) : (l.rename φ scope).evicted = l.evicted := by
  have hsize : (l.rename φ scope).entries.size = l.entries.size := HashMap.size_mapValues _ _
  simp only [evicted, victim_rename, hsize]
  rfl

theorem makeRoom_rename (l : TokenLedger R) :
    (l.rename φ scope).makeRoom = l.makeRoom.rename φ scope := by
  rw [makeRoom_eq, makeRoom_eq, evicted_rename]
  cases l.evicted with
  | none => rfl
  | some token => simp only [rename, HashMap.remove_mapValues]

/-- The same entry is reused, as no two values of a class get the same name. -/
theorem findReusable_rename (hφ : ∀ c, Function.Injective (φ c)) (l : TokenLedger R) (c : DataClass)
    (v : Str) : (l.rename φ scope).findReusable scope c (φ c v) now
      = (l.findReusable scope c v now).map fun e => (e.1, e.2.rename φ scope) := by
  simp only [findReusable, rename, HashMap.iter_mapValues, List.find?_map]
  congr 2
  funext e
  have hvalue : e.2.scope = scope ∧ e.2.dataClass = c →
      ((e.2.rename φ scope).value = φ c v ↔ e.2.value = v) := by
    rintro ⟨hs, rfl⟩
    simp only [Entry.rename, hs, ↓reduceIte]
    exact (hφ _).eq_iff
  have hscope : (e.2.rename φ scope).scope = e.2.scope := rfl
  have hclass : (e.2.rename φ scope).dataClass = e.2.dataClass := rfl
  have hexpiry : (e.2.rename φ scope).expiresAtMs = e.2.expiresAtMs := rfl
  simp only [Function.comp_apply, hscope, hclass, hexpiry]
  by_cases h : e.2.scope = scope ∧ e.2.dataClass = c
  · simp only [hvalue h]
  · by_cases hs : e.2.scope = scope
    · have hc : ¬e.2.dataClass = c := fun hc => h ⟨hs, hc⟩
      simp [hc]
    · simp [hs]

variable [RandomSource R]

theorem generateToken_rename (l : TokenLedger R) (c : DataClass) :
    (l.rename φ scope).generateToken c
      = ((l.generateToken c).1, (l.generateToken c).2.rename φ scope) := by
  unfold generateToken rename
  cases h : RandomSource.fill l.random with
  | mk drawn random =>
      cases drawn with
      | error e => rfl
      | ok bytes => rfl

theorem insertFresh_rename (entry : Entry) (attempts : Nat) (l : TokenLedger R) :
    insertFresh (entry.rename φ scope) attempts (l.rename φ scope)
      = ((insertFresh entry attempts l).1, (insertFresh entry attempts l).2.rename φ scope) := by
  induction attempts generalizing l with
  | zero => rfl
  | succ attempts ih =>
      have hclass : (entry.rename φ scope).dataClass = entry.dataClass := rfl
      simp only [insertFresh, hclass, generateToken_rename]
      cases l.generateToken entry.dataClass with
      | mk drawn l₁ =>
          cases drawn with
          | error e => rfl
          | ok token =>
              have hkey : (l₁.rename φ scope).entries.containsKey token
                  = l₁.entries.containsKey token := HashMap.containsKey_mapValues _ _ _
              simp only [hkey]
              split
              · exact ih l₁
              · simp only [rename, HashMap.insert_mapValues]

theorem issueChecked_rename (hφ : ∀ c, Function.Injective (φ c)) (l : TokenLedger R) (c : DataClass)
    (v : Str) (expiresAtMs : Nat) :
    (l.rename φ scope).issueChecked scope c (φ c v) now expiresAtMs
      = ((l.issueChecked scope c v now expiresAtMs).1,
        (l.issueChecked scope c v now expiresAtMs).2.rename φ scope) := by
  simp only [issueChecked, purgeExpired_rename, bump_rename, findReusable_rename hφ]
  generalize (l.purgeExpired now).bump = l
  cases l.findReusable scope c v now with
  | none =>
      have hentry : (⟨scope, c, φ c v, expiresAtMs, l.sequence⟩ : Entry)
          = Entry.rename φ scope ⟨scope, c, v, expiresAtMs, l.sequence⟩ := by
        simp [Entry.rename]
      have hsequence : (l.rename φ scope).sequence = l.sequence := rfl
      simp only [Option.map_none, makeRoom_rename, hsequence, hentry, insertFresh_rename]
  | some found =>
      have hmodify := HashMap.modify_mapValues (m := l.entries) (f := Entry.rename φ scope)
        (g := fun e => { e with lastUsedSequence := l.sequence, expiresAtMs }) (fun _ => rfl) found.1
      have hsequence : (l.rename φ scope).sequence = l.sequence := rfl
      simp only [Option.map_some, hsequence]
      simp only [rename, hmodify]

/-! ## Two ledgers -/

omit [RandomSource R]

/-- The unexpired entries of the second ledger are those of the first with other values. -/
def Renamed (φ : DataClass → Str → Str) (scope : SessionScope) (now : Nat) (l l' : TokenLedger R) :
    Prop :=
  l'.purgeExpired now = (l.purgeExpired now).rename φ scope

theorem purgeExpired_idem (l : TokenLedger R) (now : Nat) :
    (l.purgeExpired now).purgeExpired now = l.purgeExpired now := by
  have : (l.entries.retain fun _ e => now < e.expiresAtMs).retain (fun _ e => now < e.expiresAtMs)
      = l.entries.retain fun _ e => now < e.expiresAtMs := by
    refine HashMap.ext ?_ rfl
    simp only [HashMap.retain, List.filter_filter, Bool.and_self]
  simp only [purgeExpired, this]

/-- A renaming that keeps the unexpired values of the session changes nothing. -/
theorem renamed_self {l : TokenLedger R} (hφ : ∀ t e, l.entries.get t = some e → e.scope = scope →
    now < e.expiresAtMs → φ e.dataClass e.value = e.value) : Renamed φ scope now l l := by
  have hsame : (l.purgeExpired now).entries.mapValues (Entry.rename φ scope)
      = (l.purgeExpired now).entries := by
    refine HashMap.mapValues_eq_self fun e he => ?_
    obtain ⟨hget, hlive⟩ := get_purgeExpired.mp (HashMap.get_eq_some_iff.mpr he)
    exact Entry.rename_eq_self fun hs => hφ _ _ hget hs hlive
  simp only [Renamed, rename, hsame]

variable [RandomSource R]

theorem issueChecked_purgeExpired (l : TokenLedger R) (c : DataClass) (v : Str) (expiresAtMs : Nat) :
    (l.purgeExpired now).issueChecked scope c v now expiresAtMs
      = l.issueChecked scope c v now expiresAtMs := by
  simp only [issueChecked, purgeExpired_idem]

/-- A successful call of `issue_tracked` gets past its checks. -/
theorem issueTracked_ok {l l' : TokenLedger R} {c : DataClass} {v : Str} {ttl : Nat}
    {issued : IssuedToken} (h : l.issueTracked scope c v now ttl = (.ok issued, l')) :
    ∃ ttlMs expiresAtMs, checkedU64 (ttl * 1000) = some ttlMs ∧
      checkedU64 (now + ttlMs) = some expiresAtMs ∧
      l.issueChecked scope c v now expiresAtMs = (.ok issued, l') := by
  unfold issueTracked at h
  split at h
  · cases h
  · split at h
    · cases h
    · split at h
      · cases h
      · rename_i ttlMs httl
        split at h
        · cases h
        · rename_i expiresAtMs hexpiry
          exact ⟨ttlMs, expiresAtMs, httl, hexpiry, h⟩

/-- Values that correspond get the same token. -/
theorem Renamed.issue (hφ : ∀ c, Function.Injective (φ c)) {l l' l₁ l₁' : TokenLedger R}
    (h : Renamed φ scope now l l') {c : DataClass} {v : Str} {ttl : Nat} {issued issued' : IssuedToken}
    (hi : l.issueTracked scope c v now ttl = (.ok issued, l₁))
    (hi' : l'.issueTracked scope c (φ c v) now ttl = (.ok issued', l₁')) :
    issued' = issued ∧ Renamed φ scope now l₁ l₁' := by
  obtain ⟨ttlMs, expiresAtMs, httl, hexpiry, hi⟩ := issueTracked_ok hi
  obtain ⟨_, _, httl', hexpiry', hi'⟩ := issueTracked_ok hi'
  obtain rfl := Option.some.inj (httl.symm.trans httl')
  obtain rfl := Option.some.inj (hexpiry.symm.trans hexpiry')
  rw [← issueChecked_purgeExpired] at hi hi'
  rw [h, issueChecked_rename hφ, hi] at hi'
  obtain ⟨hissued, rfl⟩ := Prod.mk.inj hi'
  exact ⟨(Except.ok.inj hissued).symm, purgeExpired_rename l₁ now⟩

/-! ## Operations on two ledgers -/

section Operations

omit [RandomSource R]

variable {later : Nat} {l l' : TokenLedger R}

theorem purgeExpired_later (l : TokenLedger R) (le : now ≤ later) :
    (l.purgeExpired now).purgeExpired later = l.purgeExpired later := by
  have : (l.entries.retain fun _ e => now < e.expiresAtMs).retain (fun _ e => later < e.expiresAtMs)
      = l.entries.retain fun _ e => later < e.expiresAtMs := by
    refine HashMap.ext ?_ rfl
    simp only [HashMap.retain, List.filter_filter]
    refine List.filter_congr fun e _ => ?_
    rw [Bool.and_eq_left_iff_imp, decide_eq_true_eq, decide_eq_true_eq]
    exact Nat.lt_of_le_of_lt le
  simp only [purgeExpired, this]

/-- As time goes on, less of the ledgers is left to correspond. -/
theorem Renamed.mono (h : Renamed φ scope now l l') (le : now ≤ later) :
    Renamed φ scope later l l' := by
  rw [Renamed, ← purgeExpired_later l' le, h, purgeExpired_rename, purgeExpired_later l le]

theorem Renamed.purgeExpired (h : Renamed φ scope now l l') :
    Renamed φ scope now (l.purgeExpired now) (l'.purgeExpired now) := by
  rw [Renamed, purgeExpired_idem, purgeExpired_idem]
  exact h

/-- A token has the same owner in both ledgers. -/
theorem Renamed.ownsToken (h : Renamed φ scope now l l') (scope' : SessionScope) (t : Token) :
    (l'.ownsToken scope' t now).1 = (l.ownsToken scope' t now).1 := by
  have h : l'.purgeExpired now = (l.purgeExpired now).rename φ scope := h
  simp only [TokenLedger.ownsToken, h, rename, HashMap.get_mapValues, Option.any_map]
  rfl

theorem restoreExact_purgeExpired (l : TokenLedger R) (scope : SessionScope) (t : Token) (now : Nat) :
    (l.purgeExpired now).restoreExact scope t now = l.restoreExact scope t now := by
  simp only [restoreExact, purgeExpired_idem]

theorem restoreExact_rename (l : TokenLedger R) (scope' : SessionScope) (t : Token) (now : Nat) :
    ((l.rename φ scope).restoreExact scope' t now).2
      = (l.restoreExact scope' t now).2.rename φ scope := by
  simp only [restoreExact, purgeExpired_rename, bump_rename]
  generalize (l.purgeExpired now).bump = l
  have hget : (l.rename φ scope).entries.get t = (l.entries.get t).map (Entry.rename φ scope) :=
    HashMap.get_mapValues _ _ _
  simp only [hget]
  cases l.entries.get t with
  | none => rfl
  | some e =>
      have hscope : (e.rename φ scope).scope = e.scope := rfl
      have hexpiry : (e.rename φ scope).expiresAtMs = e.expiresAtMs := rfl
      simp only [Option.map_some, hscope, hexpiry]
      split
      · rfl
      · have hmodify := HashMap.modify_mapValues (m := l.entries) (f := Entry.rename φ scope)
          (g := fun e => { e with lastUsedSequence := l.sequence }) (fun _ => rfl) t
        have hsequence : (l.rename φ scope).sequence = l.sequence := rfl
        simp only [hsequence]
        simp only [rename, hmodify]

theorem Renamed.restoreExact (h : Renamed φ scope now l l') (scope' : SessionScope) (t : Token) :
    Renamed φ scope now (l.restoreExact scope' t now).2 (l'.restoreExact scope' t now).2 := by
  rw [← restoreExact_purgeExpired l, ← restoreExact_purgeExpired l', h, restoreExact_rename]
  exact purgeExpired_rename _ now

theorem clearScope_purgeExpired (l : TokenLedger R) (scope : SessionScope) (now : Nat) :
    (l.clearScope scope).2.purgeExpired now = ((l.purgeExpired now).clearScope scope).2 := by
  have : (l.entries.retain fun _ e => e.scope ≠ scope).retain (fun _ e => now < e.expiresAtMs)
      = (l.entries.retain fun _ e => now < e.expiresAtMs).retain fun _ e => e.scope ≠ scope := by
    refine HashMap.ext ?_ rfl
    simp only [HashMap.retain, List.filter_filter, Bool.and_comm]
  simp only [TokenLedger.clearScope, TokenLedger.purgeExpired, this]

theorem Renamed.clearScope (h : Renamed φ scope now l l') (scope' : SessionScope) :
    Renamed φ scope now (l.clearScope scope').2 (l'.clearScope scope').2 := by
  have hretain := HashMap.retain_mapValues (m := (l.purgeExpired now).entries)
    (f := Entry.rename φ scope) (p := fun _ e => e.scope ≠ scope') fun _ _ => rfl
  rw [Renamed, clearScope_purgeExpired, clearScope_purgeExpired, h]
  simp only [TokenLedger.clearScope, rename, hretain]

end Operations

end TokenLedger

end AgentVeil
