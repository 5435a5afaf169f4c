import AgentVeil.Ledger.History
import Mathlib.Data.List.Induction

/-!
# The record agrees with the history and with the ledger

`Restorable` is what the record of a token says (`restorable_iff`), and in every run the ledger
holds exactly the records that have not expired (`Run.agrees`).
-/

namespace AgentVeil

open Rust

/-! ## The history and the record -/

/-- `Restorable` without the time, with the class and the expiry named. -/
def SetUp (h : List LedgerEvent) (s : SessionScope) (t : Token) (c : DataClass) (v : Str)
    (x : Nat) : Prop :=
  ∃ h₁ h₂ x₀, h = h₁ ++ .inserted t s c v x₀ :: h₂ ∧ (∀ ev ∈ h₂, ¬ev.Ends s t) ∧
    lastExpiry t x₀ h₂ = x

/-- The expiry after one more event. -/
def LedgerEvent.expiry (t : Token) (x : Nat) : LedgerEvent → Nat
  | reused t' x' => if t' = t then x' else x
  | _ => x

theorem lastExpiry_concat (t : Token) (x : Nat) (h : List LedgerEvent) (ev : LedgerEvent) :
    lastExpiry t x (h ++ [ev]) = ev.expiry t (lastExpiry t x h) := by
  induction h generalizing x with
  | nil => cases ev <;> rfl
  | cons e h ih => cases e <;> exact ih _

theorem setUp_nil {s t c v x} : ¬SetUp [] s t c v x := by
  rintro ⟨h₁, h₂, x₀, he, _⟩
  simp at he

theorem setUp_concat {h ev s t c v x} :
    SetUp (h ++ [ev]) s t c v x ↔
      ev = .inserted t s c v x ∨
        ¬ev.Ends s t ∧ ∃ x', SetUp h s t c v x' ∧ ev.expiry t x' = x := by
  constructor
  · rintro ⟨h₁, h₂, x₀, he, hends, hx⟩
    rcases List.eq_nil_or_concat h₂ with rfl | ⟨h₂, ev', rfl⟩
    · obtain ⟨rfl, hev⟩ := List.append_inj' he rfl
      simp only [List.cons.injEq, and_true] at hev
      subst hx
      exact Or.inl hev
    · rw [List.concat_eq_append] at he hends hx
      have he' : h ++ [ev] = (h₁ ++ .inserted t s c v x₀ :: h₂) ++ [ev'] := by rw [he]; simp
      obtain ⟨rfl, hev⟩ := List.append_inj' he' rfl
      simp only [List.cons.injEq, and_true] at hev
      subst hev
      rw [lastExpiry_concat] at hx
      exact Or.inr ⟨hends _ (by simp), _,
        ⟨h₁, h₂, x₀, rfl, fun e he => hends e (by simp [he]), rfl⟩, hx⟩
  · rintro (rfl | ⟨hev, x', ⟨h₁, h₂, x₀, rfl, hends, rfl⟩, rfl⟩)
    · exact ⟨h, [], x, rfl, by simp, rfl⟩
    · refine ⟨h₁, h₂ ++ [ev], x₀, by simp, ?_, lastExpiry_concat ..⟩
      intro e he
      rcases List.mem_append.mp he with he | he
      · exact hends e he
      · rw [List.mem_singleton.mp he]; exact hev

@[simp] theorem record_nil (t : Token) : record [] t = none := rfl

@[simp] theorem record_concat (h : List LedgerEvent) (ev : LedgerEvent) (t : Token) :
    record (h ++ [ev]) t = ev.apply t (record h t) := by simp [record]

theorem record_eq_some_iff {h s t c v x} :
    record h t = some ⟨s, c, v, x⟩ ↔ SetUp h s t c v x := by
  induction h using List.reverseRecOn generalizing x with
  | nil => simp [setUp_nil]
  | append_singleton h ev ih =>
      rw [record_concat, setUp_concat]
      cases ev with
      | inserted t' s' c' v' x' =>
          by_cases ht : t' = t
          · simp [LedgerEvent.apply, LedgerEvent.Ends, ht]
          · simp [LedgerEvent.apply, LedgerEvent.Ends, LedgerEvent.expiry, ht, ih]
      | reused t' x' =>
          by_cases ht : t' = t
          · simp only [LedgerEvent.apply, LedgerEvent.Ends, LedgerEvent.expiry, ht, ↓reduceIte,
              reduceCtorEq, not_false_eq_true, true_and, false_or, Option.map_eq_some_iff]
            constructor
            · rintro ⟨⟨s', c', v', x''⟩, hr, he⟩
              simp only [Record.mk.injEq] at he
              obtain ⟨rfl, rfl, rfl, rfl⟩ := he
              exact ⟨x'', ih.mp hr, rfl⟩
            · rintro ⟨x'', hs, rfl⟩
              exact ⟨_, ih.mpr hs, rfl⟩
          · simp [LedgerEvent.apply, LedgerEvent.Ends, LedgerEvent.expiry, ht, ih]
      | evicted t' =>
          by_cases ht : t' = t
          · simp [LedgerEvent.apply, LedgerEvent.Ends, ht]
          · simp [LedgerEvent.apply, LedgerEvent.Ends, LedgerEvent.expiry, ht, ih]
      | rolledBack s' t' =>
          by_cases ht : t' = t
          · simp [LedgerEvent.apply, LedgerEvent.Ends, LedgerEvent.expiry, ht, ih,
              Option.filter_eq_some_iff, and_comm, eq_comm (a := s')]
          · simp [LedgerEvent.apply, LedgerEvent.Ends, LedgerEvent.expiry, ht, ih]
      | clearedScope s' =>
          simp [LedgerEvent.apply, LedgerEvent.Ends, LedgerEvent.expiry, ih,
            Option.filter_eq_some_iff, and_comm, eq_comm (a := s')]
      | clearedAll => simp [LedgerEvent.apply, LedgerEvent.Ends]

theorem restorable_iff {h s t v now} :
    Restorable h s t v now ↔
      ∃ c x, record h t = some ⟨s, c, v, x⟩ ∧ c.hardBlock = false ∧ now < x := by
  simp only [record_eq_some_iff]
  constructor
  · rintro ⟨h₁, h₂, c, x₀, he, hc, hends, hnow⟩
    exact ⟨c, _, ⟨h₁, h₂, x₀, he, hends, rfl⟩, hc, hnow⟩
  · rintro ⟨c, x, ⟨h₁, h₂, x₀, he, hends, rfl⟩, hc, hnow⟩
    exact ⟨h₁, h₂, c, x₀, he, hc, hends, hnow⟩

/-! ## The record and the ledger -/

/-- What the ledger's entry for a token says, without its recency. -/
def Entry.toRecord (e : Entry) : Record := ⟨e.scope, e.dataClass, e.value, e.expiresAtMs⟩

/-- The entry under a token agrees with its record at time `clock`: an entry is a record, of a
restorable class, and a record that has not expired is an entry. -/
structure AgreesAt (r : Option Record) (o : Option Entry) (clock : Nat) : Prop where
  sound : ∀ e ∈ o, r = some e.toRecord
  restorable : ∀ r' ∈ r, r'.dataClass.hardBlock = false
  complete : ∀ r' ∈ r, clock < r'.expiresAtMs → ∃ e ∈ o, e.toRecord = r'

/-- The map holds the records of the history. -/
def Agrees (h : List LedgerEvent) (m : HashMap Token Entry) (clock : Nat) : Prop :=
  ∀ t, AgreesAt (record h t) (m.get t) clock

namespace AgreesAt

variable {r : Option Record} {o : Option Entry} {clock : Nat} {t : Token}

theorem none : AgreesAt .none .none clock := ⟨by simp, by simp, by simp⟩

theorem some {e : Entry} (h : e.dataClass.hardBlock = false) :
    AgreesAt (.some e.toRecord) (.some e) clock :=
  ⟨by simp, by simpa [Entry.toRecord] using h, by simp⟩

theorem later {now : Nat} (ha : AgreesAt r o clock) (h : clock ≤ now) : AgreesAt r o now :=
  ⟨ha.sound, ha.restorable, fun r' hr hx => ha.complete r' hr (by omega)⟩

/-- Entries and records that pass the same test still agree. -/
theorem filter {p : Entry → Bool} {q : Record → Bool} (ha : AgreesAt r o clock)
    (hpq : ∀ e, p e = q e.toRecord) : AgreesAt (r.filter q) (o.filter p) clock := by
  refine ⟨fun e he => ?_, fun r' hr => ?_, fun r' hr hx => ?_⟩
  · obtain ⟨he, hp⟩ := Option.filter_eq_some_iff.mp he
    exact Option.filter_eq_some_iff.mpr ⟨ha.sound e he, by rw [← hpq]; exact hp⟩
  · exact ha.restorable r' (Option.filter_eq_some_iff.mp hr).1
  · obtain ⟨hr, hq⟩ := Option.filter_eq_some_iff.mp hr
    obtain ⟨e, he, rfl⟩ := ha.complete r' hr hx
    exact ⟨e, Option.filter_eq_some_iff.mpr ⟨he, by rw [hpq]; exact hq⟩, rfl⟩

/-- Dropping an expired entry leaves its record to expire. -/
theorem expire {p : Entry → Bool} {now : Nat} (ha : AgreesAt r o clock) (h : clock ≤ now)
    (hp : ∀ e, now < e.expiresAtMs → p e = true) : AgreesAt r (o.filter p) now := by
  refine ⟨fun e he => ha.sound e (Option.filter_eq_some_iff.mp he).1, ha.restorable,
    fun r' hr hx => ?_⟩
  obtain ⟨e, he, rfl⟩ := ha.complete r' hr (by omega)
  exact ⟨e, Option.filter_eq_some_iff.mpr ⟨he, hp e hx⟩, rfl⟩

/-- A change that no record sees, such as of the recency. -/
theorem touch {f : Entry → Entry} (ha : AgreesAt r o clock)
    (hf : ∀ e, (f e).toRecord = e.toRecord) : AgreesAt r (o.map f) clock := by
  refine ⟨fun e he => ?_, ha.restorable, fun r' hr hx => ?_⟩
  · obtain ⟨e', he', rfl⟩ := Option.map_eq_some_iff.mp he
    rw [hf]; exact ha.sound e' he'
  · obtain ⟨e, he, rfl⟩ := ha.complete r' hr hx
    exact ⟨f e, Option.map_eq_some_iff.mpr ⟨e, he, rfl⟩, hf e⟩

end AgreesAt

namespace Agrees

variable {R : Type} {h : List LedgerEvent} {m : HashMap Token Entry} {l : TokenLedger R}
  {clock now : Nat}

theorem purgeExpired (ha : Agrees h l.entries clock) (hle : clock ≤ now) :
    Agrees h (l.purgeExpired now).entries now := fun t => by
  rw [TokenLedger.purgeExpired, HashMap.get_retain]
  exact (ha t).expire hle fun e he => by simpa using he

theorem evict {t : Token} (ha : Agrees h m clock) :
    Agrees (h ++ [.evicted t]) (m.remove t) clock := fun t' => by
  rw [record_concat, HashMap.get_remove]
  by_cases ht : t' = t
  · simpa [LedgerEvent.apply, ht] using AgreesAt.none
  · simpa [LedgerEvent.apply, ht, Ne.symm ht] using ha t'

theorem makeRoom (ha : Agrees h l.entries clock) :
    Agrees (h ++ l.evicted.toList.map .evicted) l.makeRoom.entries clock := by
  rw [TokenLedger.makeRoom_eq]
  cases l.evicted with
  | none => simpa using ha
  | some t => exact ha.evict

theorem insert {t : Token} {e : Entry} (ha : Agrees h m clock) (he : e.dataClass.hardBlock = false) :
    Agrees (h ++ [.inserted t e.scope e.dataClass e.value e.expiresAtMs]) (m.insert t e) clock :=
  fun t' => by
  rw [record_concat, HashMap.get_insert]
  by_cases ht : t' = t
  · simpa [LedgerEvent.apply, ht, Entry.toRecord] using AgreesAt.some he
  · simpa [LedgerEvent.apply, ht, Ne.symm ht] using ha t'

theorem reuse {t : Token} {e : Entry} {x n : Nat} (ha : Agrees h m clock) (he : m.get t = some e) :
    Agrees (h ++ [.reused t x])
      (m.modify t fun e => { e with lastUsedSequence := n, expiresAtMs := x }) clock := fun t' => by
  rw [record_concat, HashMap.get_modify]
  by_cases ht : t' = t
  · subst ht
    have hr := (ha t').sound e he
    have hc := (ha t').restorable _ hr
    have h' : AgreesAt (some (Entry.mk e.scope e.dataClass e.value x n).toRecord)
        (some (Entry.mk e.scope e.dataClass e.value x n)) clock := AgreesAt.some hc
    simpa [LedgerEvent.apply, hr, he, Entry.toRecord] using h'
  · simpa [LedgerEvent.apply, ht, Ne.symm ht] using ha t'

theorem clearScope {s : SessionScope} (ha : Agrees h m clock) :
    Agrees (h ++ [.clearedScope s]) (m.retain fun _ e => e.scope ≠ s) clock := fun t => by
  rw [record_concat, HashMap.get_retain]
  exact (ha t).filter fun _ => rfl

theorem rollbackOne {s : SessionScope} {t : Token} (ha : Agrees h l.entries clock) :
    Agrees (h ++ [.rolledBack s t]) (TokenLedger.rollbackOne s l t).entries clock := fun t' => by
  have hat := ha t'
  have hfilter : AgreesAt ((record h t').filter fun r => r.scope ≠ s)
      ((l.entries.get t').filter fun e => e.scope ≠ s) clock := hat.filter fun _ => rfl
  rw [record_concat, TokenLedger.get_rollbackOne]
  by_cases ht : t' = t
  · subst ht
    simpa [LedgerEvent.apply] using hfilter
  · simpa [LedgerEvent.apply, ht, Ne.symm ht] using hat

theorem rollbackCreated {s : SessionScope} {ts : List Token} (ha : Agrees h l.entries clock) :
    Agrees (h ++ ts.map (.rolledBack s)) (l.rollbackCreated s ts).entries clock := by
  induction ts generalizing h l with
  | nil => simpa [TokenLedger.rollbackCreated] using ha
  | cons t ts ih => simpa [TokenLedger.rollbackCreated] using ih ha.rollbackOne

variable [RandomSource R]

theorem issueTracked {s : SessionScope} {c : DataClass} {v : Str} {ttl : Nat}
    (ha : Agrees h l.entries clock) (hle : clock ≤ now) :
    Agrees (h ++ l.issueEvents s c v now ttl) (l.issueTracked s c v now ttl).2.entries now := by
  have hp : Agrees h (l.opened now).entries now := ha.purgeExpired hle
  have hl : Agrees h l.entries now := fun t => (ha t).later hle
  have hi := l.issueTracked_issued s c v now ttl
  unfold TokenLedger.issueEvents TokenLedger.evictedBy
  generalize l.issueTracked s c v now ttl = res at hi ⊢
  obtain ⟨r, l'⟩ := res
  cases hi with
  | rejected no =>
      simpa [no] using hl
  | reused ok found =>
      simpa [ok, found] using hp.reuse (TokenLedger.findReusable_spec found).1
  | created ok missing shape fresh =>
      simpa [ok, missing] using hp.makeRoom.insert (e := ⟨s, c, v, _, _⟩) ok.2.1
  | failed ok missing => simpa [ok, missing] using hp.makeRoom

/-- Every operation keeps the ledger and its history in agreement. -/
theorem step (op : LedgerOp) (ha : Agrees h l.entries clock)
    (later : ∀ now ∈ op.nowMs, clock ≤ now) :
    Agrees (h ++ l.events op) (l.step op).entries (op.nowMs.getD clock) := by
  cases op with
  | issueTracked s c v now ttl => exact ha.issueTracked (later now rfl)
  | rollbackCreated s ts => exact ha.rollbackCreated
  | restoreExact s t now =>
      have hp : Agrees h (l.opened now).entries now := ha.purgeExpired (later now rfl)
      simp only [TokenLedger.step, TokenLedger.events, TokenLedger.restoreExact,
        List.append_nil, LedgerOp.nowMs, Option.getD_some]
      split
      · exact hp
      · split
        · exact hp
        · intro t'
          rw [HashMap.get_modify]
          split
          · exact (hp t').touch fun _ => rfl
          · exact hp t'
  | ownsToken s t now =>
      rw [TokenLedger.events, List.append_nil]
      exact ha.purgeExpired (later now rfl)
  | clearScope s => exact ha.clearScope
  | clearAll =>
      intro t
      simpa [TokenLedger.step, TokenLedger.events, TokenLedger.clearAll, LedgerEvent.apply]
        using AgreesAt.none
  | entryCount now =>
      rw [TokenLedger.events, List.append_nil]
      exact ha.purgeExpired (later now rfl)

end Agrees

/-- In every run from an empty ledger, the ledger agrees with the events. -/
theorem Run.agrees {R : Type} [RandomSource R] {start : TokenLedger R} {clock : Nat}
    {l : TokenLedger R} {h : List LedgerEvent} (empty : ∀ t, start.entries.get t = none)
    (run : Run start clock l h) : Agrees h l.entries clock := by
  induction run with
  | start => exact fun t => by rw [empty]; exact AgreesAt.none
  | step op _ later ih => exact ih.step op later

end AgentVeil
