import AgentVeil.Engine.Lemmas.Rewrite
import AgentVeil.Payload.Theorems
import Mathlib.Data.List.Pairwise

/-!
# The rewriting of a request

Each target is written back at its own path, so that the tree keeps its shape and every other string.
-/

namespace AgentVeil

open Rust
open Rust.Value (mapStrings)

namespace PrivacyEngine

/-! ## The order of the replacements -/

theorem startGe_total (a b : Finding × Action) : startGe a b = true ∨ startGe b a = true := by
  simp only [startGe, decide_eq_true_eq]
  exact Nat.le_total _ _

theorem startGe_trans (a b c : Finding × Action) (hab : startGe a b = true)
    (hbc : startGe b c = true) : startGe a c = true := by
  simp only [startGe, decide_eq_true_eq] at hab hbc ⊢
  exact Nat.le_trans hbc hab

/-- Disjoint spans in order are sorted from the last to the first by reversal. -/
theorem sortBy_startGe {source : Str} {fs : List (Finding × Action)}
    (ordered : fs.Pairwise fun a b => a.1.sourceSpan.stop ≤ b.1.sourceSpan.start)
    (ranges : ∀ f ∈ fs, SourceRange source f.1.sourceSpan) :
    sortBy startGe fs = fs.reverse := by
  have hlt : fs.Pairwise fun a b => a.1.sourceSpan.start < b.1.sourceSpan.start :=
    ordered.imp_of_mem fun ha _ hle => Nat.lt_of_lt_of_le (ranges _ ha).lt hle
  have hrev : fs.reverse.Pairwise fun a b => startGe a b = true :=
    List.pairwise_reverse.mpr (hlt.imp fun h => by simpa [startGe] using Nat.le_of_lt h)
  refine List.Perm.eq_of_pairwise ?_ (pairwise_sortBy startGe_total startGe_trans fs) hrev
    ((perm_sortBy startGe fs).trans (List.reverse_perm fs).symm)
  intro a b ha hb hab hba
  simp only [startGe, decide_eq_true_eq] at hab hba
  have : Std.Symm fun a b : Finding × Action => a.1.sourceSpan.start ≠ b.1.sourceSpan.start :=
    ⟨fun _ _ h => h.symm⟩
  by_contra hne
  exact (hlt.imp fun h => Nat.ne_of_lt h).forall (mem_sortBy.mp ha) (List.mem_reverse.mp hb) hne
    (Nat.le_antisymm hba hab)

/-- Writing a text back changes the string at the path of its target. -/
theorem replaceText_ok {request request' : ValidatedRequest} {i : Nat} {w : Str}
    (hc : request.value.Canonical) (h : request.replaceText i w = .ok request') :
    ∃ t, request.targets[i]? = some t ∧ t.literal = none ∧ request' =
      { request with value := mapStrings (fun q s => if q = t.path then w else s) request.value } := by
  simp only [ValidatedRequest.replaceText, locate, bind_ok_iff, okOr_ok_iff,
    Except.ok.injEq] at h
  obtain ⟨t, ht, _, hl, v, hv, _, hs, v', hset, rfl⟩ := h
  have hl := ensure_ok_iff.mp hl
  have hs := ensure_ok_iff.mp hs
  obtain ⟨s, rfl⟩ := isString_iff.mp hs
  rw [hc.set?_string hv, Option.some.injEq] at hset
  exact ⟨t, ht, hl, by rw [hset]⟩

/-- The string of a target can be written, whatever other strings are. -/
theorem exists_replaceText {request : ValidatedRequest} {t : TextTarget} {i : Nat} {s w : Str}
    (hc : request.value.Canonical) (ht : request.targets[i]? = some t) (hl : t.literal = none)
    (htext : request.text t = .ok s) (g : Path → Str → Str) :
    ∃ request', ({ request with value := mapStrings g request.value } : ValidatedRequest).replaceText
      i w = .ok request' := by
  rw [ValidatedRequest.text, hl] at htext
  simp only [locate, bind_ok_iff, okOr_ok_iff] at htext
  obtain ⟨v, hv, hs⟩ := htext
  obtain rfl : v = .string s := by
    cases v with
    | string t => rw [Option.some.inj hs]
    | _ => cases hs
  have hget : (mapStrings g request.value).get? t.path = some (.string (g t.path s)) := by
    rw [Value.get?_mapStrings, hv, Option.map_some]
    simp only [mapStrings, List.append_nil]
  have hset := hc.mapStrings.set?_string (r := w) hget
  refine ⟨⟨mapStrings (fun q t' => if q = t.path then w else t') (mapStrings g request.value),
    request.targets⟩, ?_⟩
  simp only [ValidatedRequest.replaceText, locate, bind_ok_iff, okOr_ok_iff]
  exact ⟨t, ht, (), ensure_ok_iff.mpr hl, _, hget, (), ensure_ok_iff.mpr rfl, _, hset, rfl⟩

variable {R : Type} [RandomSource R] {u : Unicode} {policy : ValidatedPolicy}
  {request : ValidatedRequest} {ledger : TokenLedger R} {scope : SessionScope} {now : Nat}

/-! ## One target -/

/-- The values that a plan asks a token for, in the order of the requests. -/
def TargetPlan.requested (plan : TargetPlan) : List (DataClass × Str) :=
  plan.findings.reverse.flatMap (PrivacyEngine.requested plan.original)

/-- A target's text is redacted; the request changes at its path, if the text does. -/
theorem outcome_rewritePlan {target : TextTarget × Nat} {plan : TargetPlan}
    (hplan : Planned u policy request ledger scope now target plan)
    (htarget : request.targets[target.2]? = some target.1) (hc : request.value.Canonical)
    (hfixed : target.1.literal.isSome = true → ∀ f ∈ plan.findings, f.2 = .allow ∨ f.2 = .block)
    {g : Path → Str → Str} {st : Rewriting R}
    (hreq : st.request = { request with value := mapStrings g request.value }) :
    Outcome (fun _ st' => ∃ is out copied, Progress policy scope now st is st' ∧
        is.map Issue.key = TargetPlan.requested plan ∧
        Redacted is 0 plan.original plan.findings out copied ∧
        (out = plan.original ∧ st'.request = st.request ∨
          target.1.literal = none ∧ st'.request = { request with
            value := mapStrings (fun q s => if q = target.1.path then out else g q s)
              request.value }))
      (fun e st' => Stopped policy scope now st (TargetPlan.requested plan) st' ∧
        Cause policy scope now st.ledger (plan.findings.map Prod.snd) (TargetPlan.requested plan)
          st'.ledger e)
      (rewritePlan policy scope now plan st) := by
  obtain ⟨found, _, hres⟩ := hplan.resolves
  have h : Outcome _ _ (rewriteFindings policy scope now (plan.original ++ [])
      plan.findings.reverse (plan.original ++ []) st) :=
    outcome_rewriteFindings hres.ordered (fun f hf => ⟨by simpa using hres.ranges f hf,
      le_len_of_isCharBoundary (hres.ranges f hf).stop⟩) st
  simp only [List.append_nil] at h
  unfold rewritePlan TargetPlan.requested
  rw [sortBy_startGe hres.ordered hres.ranges]
  generalize rewriteFindings policy scope now plan.original plan.findings.reverse plan.original st
    = r at h
  obtain ⟨e | w, st₁⟩ := r
  · exact h
  obtain ⟨is, _, copied, hp, hr, hkey, hred, rfl⟩ := h
  simp only
  by_cases heq : w = plan.original
  · rw [if_pos heq]
    exact ⟨is, w, copied, hp, hkey, hred, .inl ⟨heq, hr⟩⟩
  · have hliteral : target.1.literal = none := by
      cases hl : target.1.literal with
      | none => rfl
      | some k =>
          refine absurd (hred.eq_of_allowed fun f hf => ?_) heq
          exact (hfixed (by rw [hl]; rfl) f hf).resolve_right (hred.ne_block f hf)
    obtain ⟨request', hreplace⟩ :=
      exists_replaceText (w := w) hc htarget hliteral hplan.text g
    rw [if_neg heq, hr, hreq, hplan.index, hreplace]
    obtain ⟨t, ht, hl, rfl⟩ := replaceText_ok (by exact hc.mapStrings) hreplace
    simp only [htarget, Option.some.injEq] at ht
    subst ht
    exact ⟨is, w, copied, ⟨hp.issues, hp.created⟩, hkey, hred, .inr ⟨hl, by
      simp only [Value.mapStrings_mapStrings]⟩⟩

/-! ## All targets -/

/-- The rewritten text of every target that is no literal is a redaction of its text. -/
theorem outcome_applyRewrites {ts : List (TextTarget × Nat)} {plans : List TargetPlan}
    (hplans : List.Forall₂ (Planned u policy request ledger scope now) ts plans)
    (htargets : ∀ t ∈ ts, request.targets[t.2]? = some t.1)
    (hfixed : ∀ t ∈ ts, t.1.literal.isSome = true → t.1.mode = .blockOnly)
    (hnodup : ((ts.filter (·.1.literal.isNone)).map (·.1.path)).Nodup)
    (hc : request.value.Canonical) {g : Path → Str → Str} {st : Rewriting R}
    (hreq : st.request = { request with value := mapStrings g request.value })
    (hg : ∀ t ∈ ts, t.1.literal = none → ∀ s, g t.1.path s = s) :
    Outcome (fun _ st' => ∃ is g', Progress policy scope now st is st' ∧
        is.map Issue.key = plans.flatMap TargetPlan.requested ∧
        st'.request = { request with value := mapStrings g' request.value } ∧
        (∀ q, (∀ t ∈ ts, t.1.literal = none → t.1.path ≠ q) → g' q = g q) ∧
        List.Forall₂ (fun t plan => t.1.literal = none → ∃ copied,
          Redacted is 0 plan.original plan.findings (g' t.1.path plan.original) copied) ts plans)
      (fun e st' => Stopped policy scope now st (plans.flatMap TargetPlan.requested) st' ∧
        Cause policy scope now st.ledger (plans.flatMap fun plan => plan.findings.map Prod.snd)
          (plans.flatMap TargetPlan.requested) st'.ledger e)
      (applyRewrites policy scope now plans st) := by
  induction hplans generalizing g st with
  | nil => exact ⟨[], g, .refl, rfl, hreq, fun _ _ => rfl, .nil⟩
  | @cons t plan ts plans hplan hrest ih =>
      obtain ⟨ht, htargets⟩ := List.forall_mem_cons.mp htargets
      obtain ⟨hgt, hg⟩ := List.forall_mem_cons.mp hg
      obtain ⟨hfix, hfixed⟩ := List.forall_mem_cons.mp hfixed
      have h := outcome_rewritePlan hplan ht hc (fun hl => hplan.blockOnly (hfix hl)) hreq
      unfold applyRewrites loop
      generalize rewritePlan policy scope now plan st = r at h
      obtain ⟨e | _, st₁⟩ := r
      · exact ⟨h.1.mono (by rw [List.flatMap_cons]; exact List.prefix_append _ _),
          h.2.mono (by simp +contextual) (by simp +contextual)⟩
      obtain ⟨is, out, copied, hp, hkey, hred, hout⟩ := h
      -- the map so far, with this target
      obtain ⟨g₁, hreq₁, hgp, hgq⟩ : ∃ g₁ : Path → Str → Str,
          st₁.request = { request with value := mapStrings g₁ request.value } ∧
          (t.1.literal = none → g₁ t.1.path plan.original = out) ∧
          ∀ q, (t.1.literal = none → t.1.path ≠ q) → g₁ q = g q := by
        rcases hout with ⟨rfl, hr⟩ | ⟨hl, hr⟩
        · exact ⟨g, hr.trans hreq, fun hl => hgt hl _, fun _ _ => rfl⟩
        · exact ⟨_, hr, fun _ => if_pos rfl, fun q hq => by
            funext s; exact if_neg fun he => hq hl he.symm⟩
      have hdisj : t.1.literal = none → ∀ t' ∈ ts, t'.1.literal = none → t.1.path ≠ t'.1.path := by
        intro hl t' ht' hl' he
        rw [List.filter_cons_of_pos (by simp [hl]), List.map_cons, List.nodup_cons] at hnodup
        exact hnodup.1 (he ▸ List.mem_map_of_mem
          (List.mem_filter.mpr ⟨ht', by simp [hl']⟩))
      have hnodup' : ((ts.filter (·.1.literal.isNone)).map (·.1.path)).Nodup :=
        hnodup.sublist (((List.sublist_cons_self t ts).filter _).map _)
      have ih := ih htargets hfixed hnodup' hreq₁ fun t' ht' hl' s => by
        rw [hgq _ fun hl => hdisj hl t' ht' hl']; exact hg t' ht' hl' s
      simp only
      unfold applyRewrites at ih
      generalize loop (rewritePlan policy scope now) plans st₁ = r at ih
      obtain ⟨e | us, st₂⟩ := r
      · exact ⟨(hp.stopped ih.1).mono (by simp only [hkey, List.flatMap_cons, List.prefix_rfl]),
          (ih.2.mono (by simp +contextual) (by simp +contextual)).after hp.issues⟩
      obtain ⟨is', g', hp', hkey', hreq', hframe, hall⟩ := ih
      refine ⟨is ++ is', g', hp.trans hp', by rw [List.map_append, hkey, hkey', List.flatMap_cons],
        hreq', fun q hq => ?_, .cons (fun hl => ?_) ?_⟩
      · obtain ⟨hqt, hq⟩ := List.forall_mem_cons.mp hq
        rw [hframe q hq, hgq q hqt]
      · rw [hframe _ fun t' ht' hl' he => hdisj hl t' ht' hl' he.symm, hgp hl]
        exact ⟨copied, hred.mono (by simp +contextual)⟩
      · exact hall.imp fun t plan h hl => by
          obtain ⟨copied, h⟩ := h hl
          exact ⟨copied, h.mono (by simp +contextual)⟩

end PrivacyEngine

end AgentVeil
