import AgentVeil.Engine.Lemmas.Protect
import AgentVeil.Engine.Restoration
import AgentVeil.Ledger.Invariants
import Mathlib.Logic.Relation

/-!
# Runs of the engine

Any calls of the engine in any order, by any sessions and at any times. Every call comes to operations
of the ledger for its session, so that a run of the engine is a run of the ledger.
-/

namespace AgentVeil

open Rust

/-! ## Operations of the ledger -/

namespace TokenLedger

variable {R : Type}

/-- An entry with the same meaning; it may have been used. -/
structure Kept (e₀ e : Entry) : Prop where
  scope : e.scope = e₀.scope
  dataClass : e.dataClass = e₀.dataClass
  value : e.value = e₀.value
  expiry : e.expiresAtMs = e₀.expiresAtMs

theorem Kept.refl (e : Entry) : Kept e e := ⟨rfl, rfl, rfl, rfl⟩

theorem Kept.trans {e₀ e₁ e₂ : Entry} (h : Kept e₀ e₁) (h' : Kept e₁ e₂) : Kept e₀ e₂ where
  scope := h'.scope.trans h.scope
  dataClass := h'.dataClass.trans h.dataClass
  value := h'.value.trans h.value
  expiry := h'.expiry.trans h.expiry

/-- An entry after an issue was there before it, or it holds what was asked for. -/
theorem Issued.entry {l l' : TokenLedger R} {scope : SessionScope} {c : DataClass} {v : Str}
    {now ttl : Nat} {r : Except LedgerError IssuedToken} (h : Issued l scope c v now ttl r l')
    {t : Token} {e : Entry} (he : l'.entries.get t = some e) :
    (∃ e₀, l.entries.get t = some e₀ ∧ Kept e₀ e) ∨
      e.scope = scope ∧ e.dataClass = c ∧ e.value = v ∧ e.expiresAtMs = now + ttl * 1000 := by
  have keep : (l.opened now).entries.get t = some e →
      ∃ e₀, l.entries.get t = some e₀ ∧ Kept e₀ e := fun h => ⟨e, (get_opened.mp h).1, .refl e⟩
  cases h with
  | rejected => exact .inl ⟨e, he, .refl e⟩
  | reused _ found =>
      rw [HashMap.get_modify] at he
      split at he
      · rename_i ht
        obtain ⟨hf, hs, hc, hv, _⟩ := findReusable_spec found
        rw [ht, hf, Option.map_some, Option.some.injEq] at he
        subst he
        exact .inr ⟨hs, hc, hv, rfl⟩
      · exact .inl (keep he)
  | created =>
      rw [HashMap.get_insert] at he
      split at he
      · cases he
        exact .inr ⟨rfl, rfl, rfl, rfl⟩
      · exact .inl (keep (get_of_get_makeRoom he))
  | failed => exact .inl (keep (get_of_get_makeRoom he))

theorem restoreExact_entry {l : TokenLedger R} {scope : SessionScope} {t t' : Token} {now : Nat}
    {e : Entry} (he : (l.restoreExact scope t' now).2.entries.get t = some e) :
    ∃ e₀, l.entries.get t = some e₀ ∧ Kept e₀ e := by
  have keep : (l.opened now).entries.get t = some e →
      ∃ e₀, l.entries.get t = some e₀ ∧ Kept e₀ e := fun h => ⟨e, (get_opened.mp h).1, .refl e⟩
  cases hg : (l.opened now).entries.get t' with
  | none =>
      rw [restoreExact_none hg] at he
      exact keep he
  | some e' =>
      rw [restoreExact_some hg] at he
      split at he
      · exact keep he
      · rw [HashMap.get_modify] at he
        split at he
        · rename_i ht
          rw [ht, hg, Option.map_some, Option.some.injEq] at he
          subst he
          exact ⟨e', ht ▸ (get_opened.mp hg).1, rfl, rfl, rfl, rfl⟩
        · exact keep he

variable [RandomSource R]

/-- The ledgers that operations of a kind lead to. -/
abbrev Steps (P : LedgerOp → Prop) : TokenLedger R → TokenLedger R → Prop :=
  Relation.ReflTransGen fun l l' => ∃ op, P op ∧ l.step op = l'

variable {P : LedgerOp → Prop} {l l' : TokenLedger R}

theorem Steps.reaches (h : Steps P l l') {start : TokenLedger R} {n : Nat}
    (run : Reaches start n l) : ∃ m, Reaches start m l' := by
  induction h with
  | refl => exact ⟨n, run⟩
  | tail _ step ih =>
      obtain ⟨op, _, rfl⟩ := step
      obtain ⟨m, hm⟩ := ih
      exact ⟨_, .step op hm⟩

/-- An entry after an operation was there before it, or the operation asked for it. -/
theorem step_entry (op : LedgerOp) {t : Token} {e : Entry} (he : (l.step op).entries.get t = some e) :
    (∃ e₀, l.entries.get t = some e₀ ∧ Kept e₀ e) ∨
      ∃ now ttl, op = .issueTracked e.scope e.dataClass e.value now ttl ∧
        e.expiresAtMs = now + ttl * 1000 := by
  cases op with
  | issueTracked scope c v now ttl =>
      rcases (l.issueTracked_issued scope c v now ttl).entry he with h | ⟨rfl, rfl, rfl, hx⟩
      · exact .inl h
      · exact .inr ⟨now, ttl, rfl, hx⟩
  | rollbackCreated scope ts =>
      rw [step, get_rollbackCreated] at he
      split at he
      · exact .inl ⟨e, (Option.filter_eq_some_iff.mp he).1, .refl e⟩
      · exact .inl ⟨e, he, .refl e⟩
  | restoreExact scope t' now => exact .inl (restoreExact_entry he)
  | ownsToken scope t' now => exact .inl ⟨e, (get_purgeExpired.mp he).1, .refl e⟩
  | entryCount now => exact .inl ⟨e, (get_purgeExpired.mp he).1, .refl e⟩
  | clearScope scope =>
      rw [step, clearScope, HashMap.get_retain] at he
      exact .inl ⟨e, (Option.filter_eq_some_iff.mp he).1, .refl e⟩
  | clearAll =>
      rw [step, clearAll, HashMap.get_clear] at he
      cases he

omit [RandomSource R] in
/-- An issue for another scope keeps an unexpired entry, unless it evicts it. -/
theorem Issued.keeps_or_evicts {scope : SessionScope} {c : DataClass} {v : Str} {now ttl : Nat}
    {r : Except LedgerError IssuedToken} (h : Issued l scope c v now ttl r l') {t : Token} {e : Entry}
    (he : l.entries.get t = some e) (other : e.scope ≠ scope) (live : now < e.expiresAtMs) :
    (∃ e', l'.entries.get t = some e' ∧ Kept e e') ∨ l.evictedBy scope c v now ttl = some t := by
  have hopened : (l.opened now).entries.get t = some e := get_opened.mpr ⟨he, live⟩
  have hroom : (l.opened now).evicted ≠ some t → (l.opened now).makeRoom.entries.get t = some e :=
    fun hne => by rw [get_makeRoom, if_neg hne, hopened]
  cases h with
  | rejected => exact .inl ⟨e, he, .refl e⟩
  | @reused t' e' _ found =>
      have hne : t ≠ t' := by
        rintro rfl
        obtain ⟨hf, hs, _⟩ := findReusable_spec found
        obtain rfl := Option.some.inj (hopened.symm.trans hf)
        exact other hs
      exact .inl ⟨e, by rw [HashMap.get_modify, if_neg hne, hopened], .refl e⟩
  | created ok missing _ fresh =>
      rw [evictedBy, if_pos ⟨ok, missing⟩]
      by_cases hev : (l.opened now).evicted = some t
      · exact .inr hev
      · have hne : t ≠ tokenText c _ := fun ht => by
          rw [← ht, hroom hev] at fresh
          cases fresh
        exact .inl ⟨e, by rw [HashMap.get_insert, if_neg hne, hroom hev], .refl e⟩
  | failed ok missing =>
      rw [evictedBy, if_pos ⟨ok, missing⟩]
      by_cases hev : (l.opened now).evicted = some t
      · exact .inr hev
      · exact .inl ⟨e, hroom hev, .refl e⟩

/-- An operation for another scope, at a time at which an entry is not expired, keeps the entry, unless it
evicts it. -/
theorem step_keeps_or_evicts {op : LedgerOp} {t : Token} {e : Entry} (he : l.entries.get t = some e)
    (other : op.scope ≠ some e.scope) (all : op ≠ .clearAll)
    (live : ∀ now ∈ op.nowMs, now < e.expiresAtMs) :
    (∃ e', (l.step op).entries.get t = some e' ∧ Kept e e') ∨ .evicted t ∈ l.events op := by
  have keep : ∀ {l' : TokenLedger R}, l'.entries.get t = some e →
      ∃ e', l'.entries.get t = some e' ∧ Kept e e' := fun h => ⟨e, h, .refl e⟩
  cases op with
  | issueTracked scope c v now ttl =>
      have hs : e.scope ≠ scope := fun hs => other (congrArg some hs.symm)
      rcases (l.issueTracked_issued scope c v now ttl).keeps_or_evicts he hs (live now rfl) with h | h
      · exact .inl h
      · refine .inr (List.mem_append_left _ ?_)
        rw [h]
        simp
  | rollbackCreated scope ts =>
      refine .inl (keep ?_)
      rw [step, get_rollbackCreated, he]
      have hs : e.scope ≠ scope := fun hs => other (congrArg some hs.symm)
      split
      · simp [hs]
      · rfl
  | restoreExact scope t' now =>
      have hopened : (l.opened now).entries.get t = some e := get_opened.mpr ⟨he, live now rfl⟩
      left
      cases hg : (l.opened now).entries.get t' with
      | none =>
          rw [step, restoreExact_none hg]
          exact keep hopened
      | some e' =>
          rw [step, restoreExact_some hg]
          split
          · exact keep hopened
          · rw [HashMap.get_modify, hopened]
            split
            · exact ⟨_, rfl, rfl, rfl, rfl, rfl⟩
            · exact ⟨e, rfl, .refl e⟩
  | ownsToken scope t' now => exact .inl (keep (get_purgeExpired.mpr ⟨he, live now rfl⟩))
  | entryCount now => exact .inl (keep (get_purgeExpired.mpr ⟨he, live now rfl⟩))
  | clearScope scope =>
      refine .inl (keep ?_)
      have hs : e.scope ≠ scope := fun hs => other (congrArg some hs.symm)
      rw [step, clearScope, HashMap.get_retain, he]
      simp [hs]
  | clearAll => exact absurd rfl all

/-- Operations of a kind evict the token on the way from one ledger to another. -/
def Evicts (P : LedgerOp → Prop) (l l' : TokenLedger R) (t : Token) : Prop :=
  ∃ before op, Steps P l before ∧ P op ∧ .evicted t ∈ before.events op ∧ Steps P (before.step op) l'

theorem Steps.keeps_or_evicts (h : Steps P l l') {t : Token} {e : Entry}
    (he : l.entries.get t = some e) (others : ∀ op, P op → op.scope ≠ some e.scope ∧ op ≠ .clearAll ∧
      ∀ now ∈ op.nowMs, now < e.expiresAtMs) :
    (∃ e', l'.entries.get t = some e' ∧ Kept e e') ∨ Evicts P l l' t := by
  induction h with
  | refl => exact .inl ⟨e, he, .refl e⟩
  | tail hsteps step ih =>
      obtain ⟨op, hop, rfl⟩ := step
      rcases ih with ⟨e₁, he₁, hk₁⟩ | ⟨before, op', hbefore, hop', hev, hafter⟩
      · obtain ⟨hscope, hall, hlive⟩ := others op hop
        rw [← hk₁.scope] at hscope
        rw [← hk₁.expiry] at hlive
        rcases step_keeps_or_evicts he₁ hscope hall hlive with ⟨e₂, he₂, hk₂⟩ | hev
        · exact .inl ⟨e₂, he₂, hk₁.trans hk₂⟩
        · exact .inr ⟨_, op, hsteps, hop, hev, .refl⟩
      · exact .inr ⟨before, op', hbefore, hop', hev, hafter.tail ⟨op, hop, rfl⟩⟩

omit [RandomSource R] in
theorem issued_maxEntries {scope : SessionScope} {c : DataClass} {v : Str} {now ttl : Nat}
    {r : Except LedgerError IssuedToken} (h : Issued l scope c v now ttl r l') :
    l'.maxEntries = l.maxEntries := by
  cases h with
  | rejected | reused => rfl
  | created | failed => exact makeRoom_maxEntries (l.opened now)

theorem step_maxEntries (l : TokenLedger R) (op : LedgerOp) : (l.step op).maxEntries = l.maxEntries := by
  cases op with
  | issueTracked scope c v now ttl => exact issued_maxEntries (l.issueTracked_issued scope c v now ttl)
  | rollbackCreated scope ts =>
      obtain ⟨entries, h⟩ := l.rollbackCreated_eq scope ts
      rw [step, h]
  | restoreExact scope t now =>
      cases h : (l.opened now).entries.get t with
      | none => rw [step, restoreExact_none h]; rfl
      | some e =>
          rw [step, restoreExact_some h]
          split
          · rfl
          · rfl
  | ownsToken | entryCount | clearScope | clearAll => rfl

theorem Steps.entry (h : Steps P l l') {t : Token} {e : Entry} (he : l'.entries.get t = some e) :
    (∃ e₀, l.entries.get t = some e₀ ∧ Kept e₀ e) ∨
      ∃ now ttl, P (.issueTracked e.scope e.dataClass e.value now ttl) ∧
        e.expiresAtMs = now + ttl * 1000 := by
  induction h generalizing e with
  | refl => exact .inl ⟨e, he, .refl e⟩
  | tail _ step ih =>
      obtain ⟨op, hop, rfl⟩ := step
      rcases step_entry op he with ⟨e₁, he₁, hk₁⟩ | ⟨now, ttl, rfl, hx⟩
      · rcases ih he₁ with ⟨e₀, he₀, hk₀⟩ | ⟨now, ttl, hop, hx⟩
        · exact .inl ⟨e₀, he₀, hk₀.trans hk₁⟩
        · refine .inr ⟨now, ttl, ?_, hk₁.expiry.trans hx⟩
          rw [hk₁.scope, hk₁.dataClass, hk₁.value]
          exact hop
      · exact .inr ⟨now, ttl, hop, hx⟩

end TokenLedger

theorem Reaches.maxEntries {R : Type} [RandomSource R] {start l : TokenLedger R} {n : Nat}
    (h : Reaches start n l) : l.maxEntries = start.maxEntries := by
  induction h with
  | start => rfl
  | step op _ ih => exact (TokenLedger.step_maxEntries _ op).trans ih

/-! ## Calls of the engine -/

/-- A call of the engine. -/
inductive EngineCall where
  | protect (body : List UInt8) (scope : SessionScope) (nowMs : Nat)
  | restoreDisplayText (scope : SessionScope) (text : Str) (nowMs : Nat)
  | clearScope (scope : SessionScope)
  | ledgerEntryCount (nowMs : Nat)

/-- The session that a call is made for, if it is made for one. -/
def EngineCall.scope : EngineCall → Option SessionScope
  | protect _ scope _ | restoreDisplayText scope _ _ | clearScope scope => some scope
  | ledgerEntryCount _ => none

/-- The time of a call, if it has one. -/
def EngineCall.nowMs : EngineCall → Option Nat
  | protect _ _ nowMs | restoreDisplayText _ _ nowMs | ledgerEntryCount nowMs => some nowMs
  | clearScope _ => none

namespace PrivacyEngine

open TokenLedger (Steps Kept Evicts)

variable {R : Type} [RandomSource R]

/-- The engine after a call, whatever the call returns. -/
def step (u : Unicode) (serde : SerdeJson) (engine : PrivacyEngine R) : EngineCall → PrivacyEngine R
  | .protect body scope now => (protect u serde engine body scope now).2
  | .restoreDisplayText scope text now => (engine.restoreDisplayText scope text now).2
  | .clearScope scope => (engine.clearScope scope).2
  | .ledgerEntryCount now => (engine.ledgerEntryCount now).2

/-- The engine after calls, from the first to the last. -/
def run (u : Unicode) (serde : SerdeJson) (engine : PrivacyEngine R) (calls : List EngineCall) :
    PrivacyEngine R :=
  calls.foldl (step u serde) engine

/-- The operations of a call. -/
inductive Operates (u : Unicode) (serde : SerdeJson) (engine : PrivacyEngine R) :
    EngineCall → LedgerOp → Prop where
  | owns {body scope now t} :
      Operates u serde engine (.protect body scope now) (.ownsToken scope t now)
  | issue {body scope now request c v} (parsed : ValidatedRequest.parse serde body = .ok request)
      (asked : (c, v) ∈ requestedValues u engine request scope now) :
      Operates u serde engine (.protect body scope now)
        (.issueTracked scope c v now (ttlSeconds engine.policy c))
  | rollback {body scope now ts} :
      Operates u serde engine (.protect body scope now) (.rollbackCreated scope ts)
  | restore {scope text now t} :
      Operates u serde engine (.restoreDisplayText scope text now) (.restoreExact scope t now)
  | clear {scope} : Operates u serde engine (.clearScope scope) (.clearScope scope)
  | count {now} : Operates u serde engine (.ledgerEntryCount now) (.entryCount now)

variable {u : Unicode} {serde : SerdeJson} {engine : PrivacyEngine R} {body : List UInt8}
  {scope : SessionScope} {now : Nat} {text' : Str}

omit [RandomSource R] in
/-- The operations of a call are for its session and at its time. -/
theorem Operates.spec {call : EngineCall} {op : LedgerOp} (h : Operates u serde engine call op) :
    op.scope = call.scope ∧ op ≠ .clearAll ∧ ∀ at_ ∈ op.nowMs, call.nowMs = some at_ := by
  cases h with
  | owns | issue | restore | count => exact ⟨rfl, by simp, fun _ h => h⟩
  | rollback | clear => exact ⟨rfl, by simp, by simp [LedgerOp.nowMs]⟩

theorem plan_steps (request : ValidatedRequest) :
    Steps (Operates u serde engine (.protect body scope now)) engine.ledger
      (engine.plan u request scope now).2 := by
  have hfinding : ∀ mode text f (l : TokenLedger R),
      Steps (Operates u serde engine (.protect body scope now)) engine.ledger l →
      Steps (Operates u serde engine (.protect body scope now)) engine.ledger
        (planFinding engine.policy scope now mode text f l).2 := by
    intro mode text f l hl
    unfold planFinding
    simp only
    split
    · cases get? text f.sourceSpan with
      | none => exact hl
      | some candidate => exact hl.tail ⟨.ownsToken scope candidate now, .owns, rfl⟩
    · exact hl
  have htarget : ∀ target (l : TokenLedger R),
      Steps (Operates u serde engine (.protect body scope now)) engine.ledger l →
      Steps (Operates u serde engine (.protect body scope now)) engine.ledger
        (planTarget u engine.policy request scope now target l).2 := by
    intro target l hl
    unfold planTarget
    split
    · exact hl
    rename_i text _
    split
    · exact hl
    rename_i found _
    have hloop := loop_invariant (l := found) (hfinding target.1.mode text) hl
    generalize loop (planFinding engine.policy scope now target.1.mode text) found l = r at hloop
    obtain ⟨e | findings, l'⟩ := r
    · exact hloop
    · exact hloop
  exact loop_invariant htarget .refl

theorem Issues.steps {P : LedgerOp → Prop} {policy : ValidatedPolicy} {l l' : TokenLedger R}
    {is : List Issue} (h : Issues policy scope now l is l')
    (asked : ∀ k ∈ is.map Issue.key, P (.issueTracked scope k.1 k.2 now (ttlSeconds policy k.1))) :
    Steps P l l' := by
  induction h with
  | nil => exact .refl
  | @cons l l₁ l₂ i is issue _ ih =>
      rw [List.map_cons] at asked
      obtain ⟨hi, his⟩ := List.forall_mem_cons.mp asked
      refine .head ⟨_, hi, ?_⟩ (ih his)
      rw [TokenLedger.step, Issue.key, issue]

theorem Stopped.steps {P : LedgerOp → Prop} {policy : ValidatedPolicy} {st st' : Rewriting R}
    {work : List (DataClass × Str)} (h : Stopped policy scope now st work st')
    (asked : ∀ k ∈ work, P (.issueTracked scope k.1 k.2 now (ttlSeconds policy k.1))) :
    Steps P st.ledger st'.ledger := by
  cases h with
  | between progress within => exact progress.issues.steps fun k hk => asked k (within.subset hk)
  | @issuing is st₁ _ c v e progress within issue created =>
      have hwithin : ∀ k ∈ is.map Issue.key ++ [(c, v)], k ∈ work := fun k hk => within.subset hk
      have hlast := asked (c, v) (hwithin _ (by simp))
      refine (progress.issues.steps fun k hk => asked k (hwithin k (by simp [hk]))).tail ⟨_, hlast, ?_⟩
      rw [TokenLedger.step, issue]

/-- A call of `protect` comes to operations for its session at its time: it looks for the owners of
tokens, it asks for the values of its request, and it rolls back. -/
theorem protect_steps (u : Unicode) (serde : SerdeJson) (engine : PrivacyEngine R) (body : List UInt8)
    (scope : SessionScope) (now : Nat) :
    Steps (Operates u serde engine (.protect body scope now)) engine.ledger
      (protect u serde engine body scope now).2.ledger := by
  unfold protect
  split
  · exact .refl
  split
  · exact .refl
  rename_i hsize request hparse
  have hplan := @plan_steps _ _ u serde engine body scope now request
  have h := outcome_plan u engine request scope now
  generalize hp : engine.plan u request scope now = r at h hplan
  obtain ⟨e | plans, ledger⟩ := r
  · exact hplan
  simp only at hplan ⊢
  have judged : Judged u serde engine body scope now request plans ledger :=
    ⟨Nat.le_of_not_lt ‹_›, hparse, hp, h.1, h.2⟩
  split
  · exact hplan
  have asked : ∀ k ∈ plans.flatMap TargetPlan.requested,
      Operates u serde engine (.protect body scope now)
        (.issueTracked scope k.1 k.2 now (ttlSeconds engine.policy k.1)) := fun k hk =>
    .issue hparse (judged.requestedValues ▸ hk)
  have happly := judged.outcome_applyRewrites
  unfold forward
  generalize applyRewrites engine.policy scope now plans ⟨request, ledger, []⟩ = r at happly
  obtain ⟨e | us, st⟩ := r
  · have hstopped := hplan.trans (happly.1.steps asked)
    cases e with
    | panic => exact hstopped
    | err e => exact hstopped.tail ⟨_, .rollback, rfl⟩
  · obtain ⟨is, g, hprogress, hkeys, _⟩ := happly
    have hissued := hplan.trans (hprogress.issues.steps fun k hk => asked k (hkeys ▸ hk))
    simp only
    cases st.request.serialize serde with
    | error e => exact hissued.tail ⟨_, .rollback, rfl⟩
    | ok output => exact hissued

theorem restoreMatches_steps (ms : List Match) (text : Str) (l : TokenLedger R) :
    Steps (Operates u serde engine (.restoreDisplayText scope text' now)) l
      (restoreMatches scope now ms text l).2 := by
  induction ms generalizing text l with
  | nil => exact .refl
  | cons m ms ih =>
      have hone : Steps (Operates u serde engine (.restoreDisplayText scope text' now)) l
          (l.restoreExact scope m.text now).2 :=
        .single ⟨.restoreExact scope m.text now, .restore, rfl⟩
      unfold restoreMatches
      generalize l.restoreExact scope m.text now = r at hone
      obtain ⟨value, l'⟩ := r
      cases value with
      | none => exact hone.trans (ih text l')
      | some value =>
          simp only
          cases replaceRange? text m.range value with
          | none => exact hone
          | some restored => exact hone.trans (ih restored l')

theorem step_steps (u : Unicode) (serde : SerdeJson) (engine : PrivacyEngine R) (call : EngineCall) :
    Steps (Operates u serde engine call) engine.ledger (step u serde engine call).ledger := by
  cases call with
  | protect body scope now => exact protect_steps u serde engine body scope now
  | restoreDisplayText scope text now => exact restoreMatches_steps _ _ _
  | clearScope scope => exact .single ⟨.clearScope scope, .clear, rfl⟩
  | ledgerEntryCount now => exact .single ⟨.entryCount now, .count, rfl⟩

theorem protect_policy (u : Unicode) (serde : SerdeJson) (engine : PrivacyEngine R)
    (body : List UInt8) (scope : SessionScope) (now : Nat) :
    (protect u serde engine body scope now).2.policy = engine.policy := by
  unfold protect
  split
  · rfl
  split
  · rfl
  split
  · rfl
  · split
    · rfl
    · rfl

@[simp] theorem step_policy (u : Unicode) (serde : SerdeJson) (engine : PrivacyEngine R)
    (call : EngineCall) : (step u serde engine call).policy = engine.policy := by
  cases call with
  | protect body scope now => exact protect_policy u serde engine body scope now
  | restoreDisplayText | clearScope | ledgerEntryCount => rfl

theorem run_concat (u : Unicode) (serde : SerdeJson) (engine : PrivacyEngine R)
    (calls : List EngineCall) (call : EngineCall) :
    run u serde engine (calls ++ [call]) = step u serde (run u serde engine calls) call := by
  simp [run]

@[simp] theorem run_policy (u : Unicode) (serde : SerdeJson) (engine : PrivacyEngine R)
    (calls : List EngineCall) : (run u serde engine calls).policy = engine.policy := by
  induction calls using List.reverseRecOn with
  | nil => rfl
  | append_singleton calls call ih => rw [run_concat, step_policy, ih]

theorem run_reaches (u : Unicode) (serde : SerdeJson) (engine : PrivacyEngine R)
    (calls : List EngineCall) : ∃ n, Reaches engine.ledger n (run u serde engine calls).ledger := by
  induction calls using List.reverseRecOn with
  | nil => exact ⟨0, .start⟩
  | append_singleton calls call ih =>
      obtain ⟨n, hn⟩ := ih
      rw [run_concat]
      exact (step_steps u serde (run u serde engine calls) call).reaches hn

end PrivacyEngine

end AgentVeil
