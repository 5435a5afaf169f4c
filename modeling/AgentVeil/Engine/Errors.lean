import AgentVeil.Engine.Lemmas.Errors
import AgentVeil.Engine.Theorems

/-!
# Errors and spans of the rewrite stage
-/

namespace AgentVeil

open Rust

namespace PrivacyEngine

variable {R : Type} [RandomSource R] {u : Unicode} {serde : SerdeJson} {engine : PrivacyEngine R}
  {body : List UInt8} {scope : SessionScope} {now : Nat}

/-- A source that answers every draw with an error of the ledger. -/
structure EmptyRandom where

instance : RandomSource EmptyRandom where
  fill r := (.error .emptyValue, r)

def emptyEngine : PrivacyEngine EmptyRandom := ⟨demoPolicy, ⟨HashMap.empty, 1, 0, ⟨⟩⟩⟩

theorem emptyEngine_protect :
    (emptyEngine.protect Unicode.ascii mailSerde (demoBody "a@b.co".toList) demoScope 0).1
      = err (.ledger .emptyValue) := by
  decide +kernel

/-- The error of the source is what the call returns, for a value that is not empty. -/
theorem protect_emptyValue :
    (emptyEngine.protect Unicode.ascii mailSerde (demoBody "a@b.co".toList) demoScope 0).1
        = err (.ledger .emptyValue) ∧
      requestedValues Unicode.ascii emptyEngine
        ⟨demoValue "a@b.co".toList, [.new [key "input"] .messageText .rewrite]⟩ demoScope 0
        = [(.email, "a@b.co".toList)] :=
  ⟨emptyEngine_protect, by decide⟩

/-- A replacement of a plan lies on boundaries of the text it is made in, when it is made. -/
theorem Planned.onBoundaries {request : ValidatedRequest} {ledger : TokenLedger R}
    {policy : ValidatedPolicy} {target : TextTarget × Nat} {plan : TargetPlan}
    (h : Planned u policy request ledger scope now target plan) {done rest : List (Finding × Action)}
    {f : Finding × Action} (hsort : sortBy startGe plan.findings = done ++ f :: rest)
    {st st' : Rewriting R} {rewritten : Str}
    (hrun : rewriteFindings policy scope now plan.original done plan.original st
      = (.ok rewritten, st')) :
    SourceRange plan.original f.1.sourceSpan ∧ SourceRange rewritten f.1.sourceSpan := by
  obtain ⟨found, _, hres⟩ := h.resolves
  have hfindings : plan.findings = rest.reverse ++ f :: done.reverse := by
    rw [sortBy_startGe hres.ordered hres.ranges] at hsort
    rw [← List.reverse_reverse plan.findings, hsort]
    simp
  have hf := hres.ranges f (by rw [hfindings]; simp)
  have hordered := hres.ordered
  rw [hfindings] at hordered
  obtain ⟨_, htail, _⟩ := List.pairwise_append.mp hordered
  obtain ⟨hafter, hdone⟩ := List.pairwise_cons.mp htail
  have hwritten : Outcome _ _ (rewriteFindings policy scope now (plan.original ++ [])
      done.reverse.reverse (plan.original ++ []) st) :=
    outcome_rewriteFindings hdone (fun g hg => by
      have hr := hres.ranges g (by rw [hfindings]; simp_all)
      exact ⟨by simpa using hr, le_len_of_isCharBoundary hr.stop⟩) st
  rw [List.reverse_reverse, List.append_nil, hrun] at hwritten
  obtain ⟨_, out, _, _, _, _, hred, rfl⟩ := hwritten
  obtain ⟨a, b, ha, hstop⟩ := isCharBoundary_iff.mp hf.stop
  obtain ⟨c, d, hc, hstart⟩ := isCharBoundary_iff.mp hf.start
  -- the text up to the end of the span is still the original text
  obtain ⟨out', hout⟩ := hred.untouched ha fun g hg => by
    have := hafter g hg
    omega
  obtain ⟨m, hm, _⟩ := append_split_le (hc.symm.trans ha) (by have := hf.lt; omega)
  rw [List.append_nil, hout]
  refine ⟨hf, hf.lt, ?_, ?_⟩
  · rw [hm, ← hstart, List.append_assoc]
    exact isCharBoundary_append _ _
  · rw [← hstop]
    exact isCharBoundary_append _ _

/-- No call returns an error of the rewrite stage, unless it is what the random source returned for a draw
of the call, and every replacement lies on boundaries of the text it is made in. -/
theorem protect_internal :
    (∀ e, (protect u serde engine body scope now).1 = err e → e.internal = true →
      ∃ r le, TokenLedger.Draws engine.ledger.random r ∧ e = .ledger le ∧ RandomSource.fill r
        = (.error le, (protect u serde engine body scope now).2.ledger.random)) ∧
    ∀ request plans ledger, ValidatedRequest.parse serde body = .ok request →
      engine.plan u request scope now = (.ok plans, ledger) → ∀ plan ∈ plans, ∀ done f rest,
        sortBy startGe plan.findings = done ++ f :: rest → ∀ (st : Rewriting R) rewritten st',
          rewriteFindings engine.policy scope now plan.original done plan.original st
            = (.ok rewritten, st') →
          SourceRange plan.original f.1.sourceSpan ∧ SourceRange rewritten f.1.sourceSpan := by
  constructor
  · intro e he
    generalize hr : protect u serde engine body scope now = r at he ⊢
    obtain ⟨outcome, engine'⟩ := r
    obtain rfl : outcome = err e := he
    exact protect_error hr
  · intro request plans ledger _ hplan plan hmem done f rest hsort st rewritten st' hrun
    have h := outcome_plan u engine request scope now
    rw [hplan] at h
    obtain ⟨target, _, hplanned⟩ := (exists_of_forall₂ h.2).2 plan hmem
    exact hplanned.onBoundaries hsort hrun

def twoAddresses : Str := "a@b.co, c@d.co".toList

/-- A request with two addresses. -/
def addressesSerde : SerdeJson :=
  .ofTable [(demoBody twoAddresses, demoValue twoAddresses)] (by decide +kernel)

theorem addressesSerde_plan : (ValidatedRequest.parse addressesSerde (demoBody twoAddresses)).toOption.any (fun request =>
    (demoEngine.plan Unicode.ascii request demoScope 0).1.toOption.any fun plans =>
      plans.any fun plan => (sortBy startGe plan.findings).length == 2 &&
        ((rewriteFindings demoPolicy demoScope 0 plan.original ((sortBy startGe plan.findings).take 1)
          plan.original ⟨request, demoLedger, []⟩).1.toOption.any fun rewritten =>
            rewritten ≠ plan.original)) = true := by
  decide +kernel

/-- The error of the source, and the first of two addresses after the second has been replaced. -/
theorem protect_internal_demo :
    (∃ (r r' : EmptyRandom) (le : LedgerError), TokenLedger.Draws ⟨⟩ r ∧
      EngineError.ledger .emptyValue = .ledger le ∧ RandomSource.fill r = (.error le, r')) ∧
    ∃ (plan : TargetPlan) (done rest : List (Finding × Action)) (f : Finding × Action) (rewritten : Str),
      sortBy startGe plan.findings = done ++ f :: rest ∧ rewritten ≠ plan.original ∧
        SourceRange plan.original f.1.sourceSpan ∧ SourceRange rewritten f.1.sourceSpan := by
  constructor
  · obtain ⟨r, le, hdraws, he, hfill⟩ := protect_internal.1 _ emptyEngine_protect rfl
    exact ⟨r, _, le, hdraws, he, hfill⟩
  obtain ⟨request, hrequest, hplans⟩ := exists_ok_of_any addressesSerde_plan
  obtain ⟨plans, hok, hplan⟩ := exists_ok_of_any hplans
  obtain ⟨plan, hmem, hplan⟩ := List.any_eq_true.mp hplan
  obtain ⟨hlen, hrewritten⟩ := Bool.and_eq_true_iff.mp hplan
  obtain ⟨rewritten, hrun, hne⟩ := exists_ok_of_any hrewritten
  obtain ⟨first, second, hfindings⟩ := List.length_eq_two.mp (of_decide_eq_true hlen)
  rw [hfindings] at hrun
  have hbounds := protect_internal.2 request plans _ hrequest (Prod.ext hok rfl) plan hmem [first] second
    [] hfindings ⟨request, demoLedger, []⟩ rewritten _ (Prod.ext hrun rfl)
  exact ⟨plan, [first], [], second, rewritten, hfindings, of_decide_eq_true hne, hbounds⟩

end PrivacyEngine

end AgentVeil
