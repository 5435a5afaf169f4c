import AgentVeil.Ledger.Theorems

/-!
# What a ledger reveals

The value that a token stands for, and how far the operations of a ledger can change it.
-/

namespace AgentVeil

open Rust

namespace TokenLedger

variable {R : Type}

/-- The token stands for the value, under the scope and unexpired. -/
def Maps (l : TokenLedger R) (scope : SessionScope) (t : Token) (v : Str) (nowMs : Nat) : Prop :=
  ∃ e, l.entries.get t = some e ∧ e.scope = scope ∧ nowMs < e.expiresAtMs ∧ e.value = v

/-- What a candidate is replaced by: the value it stands for, or itself. -/
def reveal (l : TokenLedger R) (scope : SessionScope) (nowMs : Nat) (t : Token) : Str :=
  (l.restoreExact scope t nowMs).1.getD t

variable {l : TokenLedger R} {scope scope' : SessionScope} {t t' : Token} {v : Str} {now later : Nat}

theorem Maps.reveal (h : l.Maps scope t v now) : l.reveal scope now t = v := by
  rw [TokenLedger.reveal, restoreExact_eq_some.mpr h]
  rfl

theorem reveal_of_not_maps (h : ∀ v, ¬l.Maps scope t v now) : l.reveal scope now t = t := by
  rw [TokenLedger.reveal]
  cases hr : (l.restoreExact scope t now).1 with
  | none => rfl
  | some v => exact absurd (restoreExact_eq_some.mp hr) (h v)

theorem reveal_cases (l : TokenLedger R) (scope : SessionScope) (now : Nat) (t : Token) :
    (∃ v, l.Maps scope t v now ∧ l.reveal scope now t = v) ∨
      (∀ v, ¬l.Maps scope t v now) ∧ l.reveal scope now t = t := by
  by_cases h : ∃ v, l.Maps scope t v now
  · obtain ⟨v, hv⟩ := h
    exact .inl ⟨v, hv, hv.reveal⟩
  · have h := not_exists.mp h
    exact .inr ⟨h, reveal_of_not_maps h⟩

/-- What is unexpired at the time of a restoration means the same after it. -/
theorem maps_restoreExact (le : now ≤ later) :
    (l.restoreExact scope t now).2.Maps scope' t' v later ↔ l.Maps scope' t' v later := by
  have hopened : (l.opened now).Maps scope' t' v later ↔ l.Maps scope' t' v later := by
    constructor
    · rintro ⟨e, he, h⟩
      exact ⟨e, (get_opened.mp he).1, h⟩
    · rintro ⟨e, he, hs, hx, hv⟩
      exact ⟨e, get_opened.mpr ⟨he, by omega⟩, hs, hx, hv⟩
  cases hg : (l.opened now).entries.get t with
  | none =>
      rw [restoreExact_none hg]
      exact hopened
  | some e =>
      rw [restoreExact_some hg, ← hopened]
      split
      · exact Iff.rfl
      · -- only the sequence of one entry changes
        simp only [Maps, HashMap.get_modify]
        by_cases ht : t' = t
        · rw [if_pos ht, ht, hg]
          simp
        · rw [if_neg ht]

theorem reveal_restoreExact :
    (l.restoreExact scope t now).2.reveal scope' now t' = l.reveal scope' now t' := by
  rcases l.reveal_cases scope' now t' with ⟨v, hv, hr⟩ | ⟨hn, hr⟩
  · rw [hr, ((maps_restoreExact (Nat.le_refl now)).mpr hv).reveal]
  · rw [hr, reveal_of_not_maps fun v hv => hn v ((maps_restoreExact (Nat.le_refl now)).mp hv)]

end TokenLedger

end AgentVeil
