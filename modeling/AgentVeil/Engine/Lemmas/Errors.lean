import AgentVeil.Engine.Lemmas.Protect
import AgentVeil.Payload.Lemmas.Errors

/-!
# The errors of a call

The errors of the rewrite stage stand for broken invariants. A call that reaches the stage has
findings at character boundaries, values that can be issued and targets that can be written, so that
the ledger is left as the only part that may refuse.
-/

namespace AgentVeil

open Rust

/-- The errors that say that the stages disagree. -/
def EngineError.internal : EngineError → Bool
  | .invalidRewriteSpan | .blockedReachedRewrite => true
  | .ledger .emptyValue | .ledger (.nonRestorableClass _) => true
  | .payload e => e.ofTarget
  | _ => false

namespace PrivacyEngine

/-! ## Plans -/

section Plans

variable {R : Type} {u : Unicode} {policy : ValidatedPolicy} {request : ValidatedRequest}
  {scope : SessionScope} {now : Nat}

theorem planTarget_error {target : TextTarget × Nat} (htext : ∃ text, request.text target.1 = .ok text)
    {l l' : TokenLedger R} {e : Failure EngineError}
    (h : planTarget u policy request scope now target l = (.error e, l')) :
    ∃ e', e = Failure.mapErr .detector e' := by
  obtain ⟨text, htext⟩ := htext
  unfold planTarget at h
  rw [htext] at h
  simp only at h
  split at h
  · rename_i e' _
    obtain ⟨⟨⟩, _⟩ := Prod.mk.inj h
    exact ⟨e', rfl⟩
  · rename_i found hs
    obtain ⟨l₁, hloop, _⟩ := loop_planFinding policy scope now target.1.mode (scan_ranges u policy hs)
      (SameLive.refl now l)
    rw [hloop] at h
    cases h

/-- Planning fails in a scan only. -/
theorem plan_error {engine : PrivacyEngine R} (ht : request.Tracks) {l' : TokenLedger R}
    {e : Failure EngineError} (h : engine.plan u request scope now = (.error e, l')) :
    ∃ e', e = Failure.mapErr .detector e' := by
  have hloop : Outcome (fun _ _ => True ∧ List.Forall₂ (fun _ _ => True) request.targets.zipIdx _)
      (fun e _ => ∃ e', e = Failure.mapErr .detector e') (engine.plan u request scope now) :=
    outcome_loop (fun target hmem l _ => by
      have htext := ht.text_ok (List.fst_mem_of_mem_zipIdx hmem)
      generalize hp : planTarget u engine.policy request scope now target l = r
      obtain ⟨e | plan, l'⟩ := r
      · exact planTarget_error htext hp
      · exact ⟨trivial, trivial⟩) trivial
  rw [h] at hloop
  exact hloop

/-- A plan that does not block asks for tokens that may be issued. -/
theorem Planned.issuable {ledger : TokenLedger R} {target : TextTarget × Nat} {plan : TargetPlan}
    (h : Planned u policy request ledger scope now target plan) :
    ∀ w ∈ TargetPlan.requested plan, w.2 ≠ [] ∧ w.1.hardBlock = false := by
  obtain ⟨found, _, hres⟩ := h.resolves
  intro w hw
  obtain ⟨f, hf, hw⟩ := List.mem_flatMap.mp hw
  have hf := List.mem_reverse.mp hf
  unfold requested at hw
  split at hw
  · rename_i htokenize
    obtain ⟨text, htext, rfl⟩ := List.mem_map.mp hw
    have hget := Option.mem_toList.mp htext
    constructor
    · rintro rfl
      obtain ⟨_, _, _, hstart, hstop⟩ := get?_eq_some_iff.mp hget
      have := (hres.ranges f hf).lt
      simp only [len_nil] at hstop
      omega
    · -- the class and the action come from the same finding
      obtain ⟨_, hmem, hwidens⟩ := hres.origin f hf
      obtain ⟨g, _, rfl⟩ := List.mem_map.mp hmem
      have haction := hwidens.action
      rw [htokenize] at haction
      have hclass : f.1.dataClass = g.dataClass := by rw [hwidens.finding]
      change f.1.dataClass.hardBlock = false
      rw [hclass]
      refine policy.not_hardBlock_of_ne_block fun hblock => ?_
      simp only [effectiveAction, escalate, hblock] at haction
      split at haction
      · cases haction
      · split at haction
        · cases haction
        · cases haction
  · cases hw

end Plans

/-! ## Rewrites -/

section Rewrites

variable {R : Type} [RandomSource R] {u : Unicode} {serde : SerdeJson} {engine : PrivacyEngine R}
  {body : List UInt8} {scope : SessionScope} {now : Nat}

/-- An internal error is one that the source returned after draws, and the last thing it did. -/
def Passed (source : R) (e : EngineError) (ledger : TokenLedger R) : Prop :=
  e.internal = true → ∃ r le, TokenLedger.Draws source r ∧ e = .ledger le ∧
    RandomSource.fill r = (.error le, ledger.random)

theorem Passed.of_external {source : R} {e : EngineError} (h : e.internal = false)
    (ledger : TokenLedger R) : Passed source e ledger := by
  intro hi
  rw [h] at hi
  cases hi

omit [RandomSource R] in
theorem random_rollbackCreated (l : TokenLedger R) (scope : SessionScope) (ts : List Token) :
    (l.rollbackCreated scope ts).random = l.random := by
  obtain ⟨entries, h⟩ := l.rollbackCreated_eq scope ts
  rw [h]

theorem Issues.draws {policy : ValidatedPolicy} {l l' : TokenLedger R} {is : List Issue}
    (h : Issues policy scope now l is l') : TokenLedger.Draws l.random l'.random := by
  induction h with
  | nil => exact .refl
  | @cons l l₁ l₂ i is issue _ ih =>
      have hone := l.draws_issueTracked scope i.dataClass i.value now (ttlSeconds policy i.dataClass)
      rw [issue] at hone
      exact hone.trans ih

theorem Cause.passed {policy : ValidatedPolicy} {actions : List Action}
    {work : List (DataClass × Str)} {start ledger : TokenLedger R} {e : EngineError}
    (h : Cause policy scope now start actions work ledger (.err e)) (hblock : .block ∉ actions)
    (hwork : ∀ w ∈ work, w.2 ≠ [] ∧ w.1.hardBlock = false) : Passed start.random e ledger := by
  cases h with
  | blocks mem => exact absurd mem hblock
  | issue before asked issue =>
      obtain ⟨hv, hc⟩ := hwork _ asked
      rcases TokenLedger.issueTracked_error issue with
        ⟨hnil, _⟩ | ⟨hhard, _⟩ | rfl | rfl | ⟨r, hdraws, hfill⟩
      · exact absurd hnil hv
      · rw [hc] at hhard; cases hhard
      · exact .of_external rfl _
      · exact .of_external rfl _
      · exact fun _ => ⟨r, _, before.draws.trans hdraws, rfl, hfill⟩

/-- The errors of `protect` after the verdict. -/
theorem forward_error {request : ValidatedRequest} {plans : List TargetPlan}
    {ledger ledger' : TokenLedger R}
    (judged : Judged u serde engine body scope now request plans ledger)
    (blocks : ¬FindsBlock u engine request scope now) {e : EngineError}
    (h : forward serde engine.policy scope now request plans ledger = (err e, ledger')) :
    Passed ledger.random e ledger' := by
  have happly := judged.outcome_applyRewrites
  unfold forward at h
  generalize applyRewrites engine.policy scope now plans ⟨request, ledger, []⟩ = r at h happly
  obtain ⟨e' | us, st⟩ := r
  · cases e' with
    | panic => cases h
    | err e' =>
        obtain ⟨⟨⟩, rfl⟩ := Prod.mk.inj h
        have hpassed := happly.2.passed (fun hmem => blocks ?_) fun w hw => ?_
        · intro hi
          rw [random_rollbackCreated]
          exact hpassed hi
        · obtain ⟨plan, hp, hmem⟩ := List.mem_flatMap.mp hmem
          obtain ⟨f, hf, hb⟩ := List.mem_map.mp hmem
          exact (blocks_plans judged.planned).mp (blocks_summarize.mpr ⟨plan, hp, f, hf, hb⟩)
        · obtain ⟨plan, hp, hw⟩ := List.mem_flatMap.mp hw
          obtain ⟨target, _, hplanned⟩ := (exists_of_forall₂ judged.planned).2 plan hp
          exact hplanned.issuable w hw
  · simp only at h
    split at h
    · rename_i e' he
      obtain ⟨⟨⟩, _⟩ := Prod.mk.inj h
      have hser : Untargeted (st.request.serialize serde) := raises_okOr rfl
      exact .of_external (e := .payload e') (hser e' he) _
    · cases h

theorem protect_error {e : EngineError} {engine' : PrivacyEngine R}
    (h : protect u serde engine body scope now = (err e, engine')) :
    Passed engine.ledger.random e engine'.ledger := by
  unfold protect at h
  split at h
  · obtain ⟨⟨⟩, _⟩ := Prod.mk.inj h
    exact .of_external rfl _
  rename_i hsize
  split at h
  · rename_i e' he
    obtain ⟨⟨⟩, _⟩ := Prod.mk.inj h
    exact .of_external (e := .payload e') (untargeted_parse serde body e' he) _
  rename_i request hparse
  obtain ⟨htracks, _⟩ := parse_tracks hparse
  have hplan := outcome_plan u engine request scope now
  generalize hr : engine.plan u request scope now = r at h hplan
  obtain ⟨e' | plans, ledger⟩ := r
  · obtain ⟨he, _⟩ := Prod.mk.inj h
    obtain ⟨d, rfl⟩ := plan_error htracks hr
    cases d with
    | panic => cases he
    | err d => cases he; exact .of_external rfl _
  simp only at h
  split at h
  · cases h
  · rename_i hb
    have judged : Judged u serde engine body scope now request plans ledger :=
      ⟨Nat.le_of_not_lt hsize, hparse, hr, hplan.1, hplan.2⟩
    generalize hf : forward serde engine.policy scope now request plans ledger = r at h
    obtain ⟨outcome, ledger'⟩ := r
    obtain ⟨rfl, rfl⟩ := Prod.mk.inj h
    rw [← judged.live.random]
    exact forward_error judged (fun hf => hb ((blocks_plans judged.planned).mpr hf)) hf

end Rewrites

end PrivacyEngine

end AgentVeil
