import AgentVeil.Ledger.Lemmas.Record

/-!
# Theorems about the ledger
-/

namespace AgentVeil

open Rust

variable {R : Type}

/-! ## Restoration -/

theorem restoreExact_eq_some {l : TokenLedger R} {s : SessionScope} {t : Token} {now : Nat}
    {v : Str} : (l.restoreExact s t now).1 = some v ↔
      ∃ e, l.entries.get t = some e ∧ e.scope = s ∧ now < e.expiresAtMs ∧ e.value = v := by
  have hget : ∀ e, (l.opened now).entries.get t = some e ↔
      l.entries.get t = some e ∧ now < e.expiresAtMs := fun e => TokenLedger.get_opened
  cases hg : (l.opened now).entries.get t with
  | none =>
      rw [TokenLedger.restoreExact_none hg]
      simp only [reduceCtorEq, false_iff]
      rintro ⟨e, he, _, hx, _⟩
      rw [(hget e).mpr ⟨he, hx⟩] at hg
      cases hg
  | some e =>
      obtain ⟨he, hx⟩ := (hget e).mp hg
      rw [TokenLedger.restoreExact_some hg]
      by_cases hs : e.scope = s
      · simp [hs, he, Nat.not_le.mpr hx, hx]
      · simp [hs, he]

theorem ownsToken_eq_true {l : TokenLedger R} {s : SessionScope} {t : Token} {now : Nat} :
    (l.ownsToken s t now).1 = true ↔
      ∃ e, l.entries.get t = some e ∧ e.scope = s ∧ now < e.expiresAtMs := by
  simp only [TokenLedger.ownsToken, Option.any_eq_true, TokenLedger.get_purgeExpired,
    Bool.and_eq_true, decide_eq_true_eq]
  constructor
  · rintro ⟨e, ⟨he, _⟩, hs, hx⟩; exact ⟨e, he, hs, hx⟩
  · rintro ⟨e, he, hs, hx⟩; exact ⟨e, ⟨he, hx⟩, hs, hx⟩

variable [RandomSource R]

/-- An entry of scope `s` after an operation under another scope was there before it. -/
theorem get_step_of_scope_ne {l : TokenLedger R} {op : LedgerOp} {t : Token} {e : Entry}
    (hop : op.scope ≠ some e.scope) (he : (l.step op).entries.get t = some e) :
    ∃ e', l.entries.get t = some e' ∧ e'.scope = e.scope ∧ e'.value = e.value := by
  have keep : ∀ {now : Nat}, (l.opened now).entries.get t = some e →
      ∃ e', l.entries.get t = some e' ∧ e'.scope = e.scope ∧ e'.value = e.value :=
    fun h => ⟨e, (TokenLedger.get_opened.mp h).1, rfl, rfl⟩
  cases op with
  | issueTracked s c v now ttl =>
      have hi := l.issueTracked_issued s c v now ttl
      simp only [TokenLedger.step] at he
      generalize l.issueTracked s c v now ttl = res at hi he
      obtain ⟨r, l'⟩ := res
      have hs : s ≠ e.scope := fun h => hop (by rw [← h]; rfl)
      cases hi with
      | rejected => exact ⟨e, he, rfl, rfl⟩
      | reused _ found =>
          rw [HashMap.get_modify] at he
          split at he
          · rename_i ht
            subst ht
            obtain ⟨hf, hsf, _⟩ := TokenLedger.findReusable_spec found
            obtain ⟨e₀, he₀, rfl⟩ := Option.map_eq_some_iff.mp he
            rw [hf, Option.some.injEq] at he₀
            subst he₀
            exact absurd hsf.symm hs
          · exact keep he
      | created _ _ _ _ =>
          rw [HashMap.get_insert] at he
          split at he
          · cases he; exact absurd rfl hs
          · exact keep (TokenLedger.get_of_get_makeRoom he)
      | failed => exact keep (TokenLedger.get_of_get_makeRoom he)
  | rollbackCreated s ts =>
      refine ⟨e, ?_, rfl, rfl⟩
      rw [TokenLedger.step, TokenLedger.get_rollbackCreated] at he
      split at he
      · exact (Option.filter_eq_some_iff.mp he).1
      · exact he
  | restoreExact s t' now =>
      simp only [TokenLedger.step, TokenLedger.restoreExact] at he
      split at he
      · exact keep he
      · split at he
        · exact keep he
        · rw [HashMap.get_modify] at he
          split at he
          · obtain ⟨e₀, he₀, rfl⟩ := Option.map_eq_some_iff.mp he
            exact ⟨e₀, (TokenLedger.get_opened.mp he₀).1, rfl, rfl⟩
          · exact keep he
  | ownsToken s t' now => exact keep he
  | clearScope s =>
      simp only [TokenLedger.step, TokenLedger.clearScope, HashMap.get_retain,
        Option.filter_eq_some_iff] at he
      exact ⟨e, he.1, rfl, rfl⟩
  | clearAll => simp [TokenLedger.step, TokenLedger.clearAll] at he
  | entryCount now => exact keep he

/-- Restoration is exactly same-session, unexpired and authentic. In every run, `restoreExact` and
`ownsToken` answer what the events say; an operation under another scope leaves a value as it is,
or takes it away; and no value of a hard-block class is restored. -/
theorem restoreExact_iff_restorable {map : HashMap Token Entry} {maxEntries : Nat} {random : R}
    {start l : TokenLedger R} {clock : Nat} {h : List LedgerEvent}
    (new : TokenLedger.withRandom map maxEntries random = .ok start) (run : Run start clock l h)
    (s : SessionScope) (t : Token) {now : Nat} (later : clock ≤ now) :
    (∀ v, (l.restoreExact s t now).1 = some v ↔ Restorable h s t v now) ∧
    ((l.ownsToken s t now).1 = true ↔ ∃ v, Restorable h s t v now) ∧
    (∀ op v v' now', op.scope ≠ some s → (l.restoreExact s t now).1 = some v →
      ((l.step op).restoreExact s t now').1 = some v' → v' = v) ∧
    (∀ v, (l.restoreExact s t now).1 = some v →
      ∃ e, l.entries.get t = some e ∧ e.value = v ∧ e.dataClass.hardBlock = false) := by
  have empty : ∀ t, start.entries.get t = none := by
    intro t
    unfold TokenLedger.withRandom at new
    split at new <;> cases new
    simp
  have ha : AgreesAt (record h t) (l.entries.get t) clock := run.agrees empty t
  have entry_iff : ∀ v, (∃ e, l.entries.get t = some e ∧ e.scope = s ∧ now < e.expiresAtMs ∧
      e.value = v) ↔ Restorable h s t v now := by
    intro v
    rw [restorable_iff]
    constructor
    · rintro ⟨e, he, rfl, hx, rfl⟩
      have hr := ha.sound e he
      exact ⟨e.dataClass, e.expiresAtMs, hr, ha.restorable _ hr, hx⟩
    · rintro ⟨c, x, hr, _, hx⟩
      obtain ⟨e, he, hre⟩ := ha.complete _ hr (by simp only; omega)
      simp only [Entry.toRecord, Record.mk.injEq] at hre
      obtain ⟨rfl, rfl, rfl, rfl⟩ := hre
      exact ⟨e, he, rfl, hx, rfl⟩
  refine ⟨fun v => restoreExact_eq_some.trans (entry_iff v), ?_, ?_, ?_⟩
  · rw [ownsToken_eq_true]
    constructor
    · rintro ⟨e, he, hs, hx⟩; exact ⟨e.value, (entry_iff _).mp ⟨e, he, hs, hx, rfl⟩⟩
    · rintro ⟨v, hv⟩
      obtain ⟨e, he, hs, hx, _⟩ := (entry_iff v).mpr hv
      exact ⟨e, he, hs, hx⟩
  · intro op v v' now' hop hv hv'
    obtain ⟨e, he, rfl, _, rfl⟩ := restoreExact_eq_some.mp hv
    obtain ⟨e', he', hs', _, rfl⟩ := restoreExact_eq_some.mp hv'
    obtain ⟨e₀, he₀, _, hval⟩ := get_step_of_scope_ne (hs' ▸ hop) he'
    rw [he, Option.some.injEq] at he₀
    rw [← hval, he₀]
  · intro v hv
    obtain ⟨e, he, _, _, rfl⟩ := restoreExact_eq_some.mp hv
    exact ⟨e, he, rfl, ha.restorable _ (ha.sound e he)⟩

def demoScope : SessionScope := ⟨"scope_demo_123456".toList, by decide⟩

def demoLedger : TokenLedger CounterRandom := ⟨HashMap.empty.clear, 1, 0, ⟨0⟩⟩

/-- One issue of `a`, and its restoration a millisecond later. -/
theorem restoreExact_demo :
    Restorable (demoLedger.events (.issueTracked demoScope .email ['a'] 0 60)) demoScope
      (tokenText .email ((List.ofFn fun _ : Fin tokenRandomBytes => (1 : UInt8)).flatMap hexByte))
      ['a'] 1 := by
  have run := Run.step (.issueTracked demoScope .email ['a'] 0 60) (@Run.start _ _ demoLedger)
    (by simp)
  exact ((restoreExact_iff_restorable (rfl : TokenLedger.withRandom HashMap.empty 1 _ = _) run
    demoScope _ (Nat.zero_le 1)).1 ['a']).mp (by decide)

end AgentVeil
