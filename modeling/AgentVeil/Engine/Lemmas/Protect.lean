import AgentVeil.Engine.Lemmas.Apply

/-!
# What one call of `protect` can do

`Protected` lists the outcomes of a call with the ledger each leaves behind; the properties of
`protect` are derived from it.
-/

namespace AgentVeil

open Rust
open Rust.Value (mapStrings)

namespace PrivacyEngine

variable {R : Type}

/-- The call gets as far as the verdict, with these plans and this ledger. -/
structure Judged (u : Unicode) (serde : SerdeJson) (engine : PrivacyEngine R) (body : List UInt8)
    (scope : SessionScope) (nowMs : Nat) (request : ValidatedRequest) (plans : List TargetPlan)
    (ledger : TokenLedger R) : Prop where
  size : body.length ≤ engine.policy.defaults.maxRequestBytes
  parsed : ValidatedRequest.parse serde body = .ok request
  plan : engine.plan u request scope nowMs = (.ok plans, ledger)
  live : SameLive nowMs engine.ledger ledger
  planned : List.Forall₂ (Planned u engine.policy request engine.ledger scope nowMs)
    request.targets.zipIdx plans

/-- Every target of a judged request scans. -/
theorem Judged.scans {u : Unicode} {serde : SerdeJson} {engine : PrivacyEngine R}
    {body : List UInt8} {scope : SessionScope} {now : Nat} {request : ValidatedRequest}
    {plans : List TargetPlan} {ledger : TokenLedger R}
    (h : Judged u serde engine body scope now request plans ledger) :
    ∀ target ∈ request.targets, TargetScans u engine.policy request target := by
  intro target ht
  obtain ⟨i, hi⟩ := List.mem_iff_getElem?.mp ht
  obtain ⟨plan, _, hplan⟩ := (exists_of_forall₂ h.planned).1 (target, i)
    (List.mk_mem_zipIdx_iff_getElem?.mpr hi)
  obtain ⟨found, hs, _⟩ := hplan.findings
  exact ⟨plan.original, found, hplan.text, hs⟩

/-- The values that a request asks tokens for, in the order of the requests. -/
def requestedValues (u : Unicode) (engine : PrivacyEngine R) (request : ValidatedRequest)
    (scope : SessionScope) (nowMs : Nat) : List (DataClass × Str) :=
  match (engine.plan u request scope nowMs).1 with
  | .ok plans => plans.flatMap TargetPlan.requested
  | .error _ => []

theorem Judged.requestedValues {u : Unicode} {serde : SerdeJson} {engine : PrivacyEngine R}
    {body : List UInt8} {scope : SessionScope} {now : Nat} {request : ValidatedRequest}
    {plans : List TargetPlan} {ledger : TokenLedger R}
    (h : Judged u serde engine body scope now request plans ledger) :
    requestedValues u engine request scope now = plans.flatMap TargetPlan.requested := by
  rw [PrivacyEngine.requestedValues, h.plan]

/-- The paths of the targets that are no literals. -/
theorem leafPaths_zipIdx (request : ValidatedRequest) :
    (request.targets.zipIdx.filter (·.1.literal.isNone)).map (·.1.path)
      = request.leafTargets.map (·.path) := by
  rw [ValidatedRequest.leafTargets]
  generalize request.targets = l
  generalize 0 = n
  induction l generalizing n with
  | nil => rfl
  | cons t l ih =>
      rw [List.zipIdx_cons]
      cases hl : t.literal.isNone with
      | true => simp [hl, ih]
      | false => simp [hl, ih]

/-- The redaction of the text of a target, among its resolved findings. -/
def Redaction (u : Unicode) (policy : ValidatedPolicy) (ledger : TokenLedger R)
    (scope : SessionScope) (nowMs : Nat) (is : List Issue) (mode : RewriteMode) (original out : Str) :
    Prop :=
  ∃ found copied, (Scanner.new policy.detectors).scan u original = .ok found ∧
    Redacted is 0 original (resolveOverlaps (actions policy ledger scope nowMs mode original found))
      out copied

variable [RandomSource R]

/-- The outcomes of `protect`. -/
inductive Protected (u : Unicode) (serde : SerdeJson) (engine : PrivacyEngine R)
    (body : List UInt8) (scope : SessionScope) (nowMs : Nat) :
    Fallible EngineError ProtectionOutcome → TokenLedger R → Prop where
  /-- The body is too long or it is not a request. -/
  | refused {e} (no : engine.policy.defaults.maxRequestBytes < body.length ∨
        ∃ e, ValidatedRequest.parse serde body = .error e) :
      Protected u serde engine body scope nowMs (err e) engine.ledger
  /-- Some target does not scan. -/
  | unplanned {e request ledger} (parsed : ValidatedRequest.parse serde body = .ok request)
      (live : SameLive nowMs engine.ledger ledger)
      (no : ∃ target ∈ request.targets, ¬TargetScans u engine.policy request target) :
      Protected u serde engine body scope nowMs (.error e) ledger
  | blocked {request plans ledger}
      (judged : Judged u serde engine body scope nowMs request plans ledger)
      (blocks : FindsBlock u engine request scope nowMs) :
      Protected u serde engine body scope nowMs (.ok (.blocked (summarize plans))) ledger
  | panicked {request plans ledger st}
      (judged : Judged u serde engine body scope nowMs request plans ledger)
      (blocks : ¬FindsBlock u engine request scope nowMs)
      (stopped : Stopped engine.policy scope nowMs ⟨request, ledger, []⟩
        (plans.flatMap TargetPlan.requested) st) :
      Protected u serde engine body scope nowMs (.error .panic) st.ledger
  /-- A rewrite or the serialization fails, and the created tokens are rolled back. -/
  | rolledBack {e request plans ledger st}
      (judged : Judged u serde engine body scope nowMs request plans ledger)
      (blocks : ¬FindsBlock u engine request scope nowMs)
      (stopped : Stopped engine.policy scope nowMs ⟨request, ledger, []⟩
        (plans.flatMap TargetPlan.requested) st) :
      Protected u serde engine body scope nowMs (err e)
        (st.ledger.rollbackCreated scope st.created)
  | forwarded {request plans ledger ledger' is g output}
      (judged : Judged u serde engine body scope nowMs request plans ledger)
      (blocks : ¬FindsBlock u engine request scope nowMs)
      (issues : Issues engine.policy scope nowMs ledger is ledger')
      (keys : is.map Issue.key = plans.flatMap TargetPlan.requested)
      (written : serde.toVec (mapStrings g request.value) = some output)
      (redacted : ∀ t ∈ request.leafTargets, ∀ s, (t.path, s) ∈ request.value.leaves →
        Redaction u engine.policy engine.ledger scope nowMs is t.mode s (g t.path s)) :
      Protected u serde engine body scope nowMs
        (.ok (.forward ⟨output, (summarize plans).decision, summarize plans⟩)) ledger'

variable {u : Unicode} {serde : SerdeJson} {engine : PrivacyEngine R} {body : List UInt8}
  {scope : SessionScope} {now : Nat}

/-- The rewrites of a judged request. -/
theorem Judged.outcome_applyRewrites {request : ValidatedRequest} {plans : List TargetPlan}
    {ledger : TokenLedger R} (judged : Judged u serde engine body scope now request plans ledger) :
    Outcome (fun _ st' => ∃ is g, Progress engine.policy scope now ⟨request, ledger, []⟩ is st' ∧
        is.map Issue.key = plans.flatMap TargetPlan.requested ∧
        st'.request = { request with value := mapStrings g request.value } ∧
        List.Forall₂ (fun t plan => t.1.literal = none → ∃ copied,
          Redacted is 0 plan.original plan.findings (g t.1.path plan.original) copied)
          request.targets.zipIdx plans)
      (fun e st' => Stopped engine.policy scope now ⟨request, ledger, []⟩
          (plans.flatMap TargetPlan.requested) st' ∧
        Cause engine.policy scope now ledger (plans.flatMap fun plan => plan.findings.map Prod.snd)
          (plans.flatMap TargetPlan.requested) st'.ledger e)
      (applyRewrites engine.policy scope now plans ⟨request, ledger, []⟩) := by
  obtain ⟨htracks, _⟩ := parse_tracks judged.parsed
  have hnodup : ((request.targets.zipIdx.filter (·.1.literal.isNone)).map (·.1.path)).Nodup := by
    rw [leafPaths_zipIdx]
    exact htracks.paths.nodup_iff.mpr htracks.canonical.nodup_leaves
  have htargets : ∀ t ∈ request.targets.zipIdx, request.targets[t.2]? = some t.1 :=
    fun t ht => List.mk_mem_zipIdx_iff_getElem?.mp ht
  have hfixed : ∀ t ∈ request.targets.zipIdx, t.1.literal.isSome = true → t.1.mode = .blockOnly :=
    fun t ht => htracks.literal_mode t.1 (List.fst_mem_of_mem_zipIdx ht)
  have h : Outcome _ _ (applyRewrites engine.policy scope now plans ⟨request, ledger, []⟩) :=
    PrivacyEngine.outcome_applyRewrites judged.planned htargets hfixed hnodup htracks.canonical
      (g := fun _ s => s) (by rw [Value.mapStrings_self]) (fun _ _ _ _ => rfl)
  generalize applyRewrites engine.policy scope now plans ⟨request, ledger, []⟩ = r at h ⊢
  obtain ⟨e | us, st⟩ := r
  · exact h
  · obtain ⟨is, g, hp, hkey, hreq, _, hall⟩ := h
    exact ⟨is, g, hp, hkey, hreq, hall⟩

theorem forward_protected {request : ValidatedRequest} {plans : List TargetPlan}
    {ledger : TokenLedger R} (judged : Judged u serde engine body scope now request plans ledger)
    (blocks : ¬FindsBlock u engine request scope now) :
    Protected u serde engine body scope now
      (forward serde engine.policy scope now request plans ledger).1
      (forward serde engine.policy scope now request plans ledger).2 := by
  obtain ⟨htracks, _⟩ := parse_tracks judged.parsed
  have h := judged.outcome_applyRewrites
  unfold forward
  generalize applyRewrites engine.policy scope now plans ⟨request, ledger, []⟩ = r at h
  obtain ⟨e | us, st⟩ := r
  · cases e with
    | panic => exact .panicked judged blocks h.1
    | err e => exact .rolledBack judged blocks h.1
  obtain ⟨is, g, hp, hkey, hreq, hall⟩ := h
  simp only
  split
  · exact .rolledBack judged blocks (.between hp (hkey ▸ List.prefix_refl _))
  · rename_i output hser
    have hwritten : serde.toVec (mapStrings g request.value) = some output := by
      rw [ValidatedRequest.serialize, hreq] at hser
      exact okOr_ok_iff.mp hser
    refine .forwarded judged blocks hp.issues hkey hwritten fun t ht s hs => ?_
    obtain ⟨htmem, hl⟩ := List.mem_filter.mp ht
    have hl : t.literal = none := by simpa using hl
    obtain ⟨i, hi⟩ := List.mem_iff_getElem?.mp htmem
    obtain ⟨plan, _, hplan, hred⟩ := (exists_of_forall₂
      (List.Forall₂.mp (fun _ _ => And.intro) judged.planned hall)).1 (t, i)
      (List.mk_mem_zipIdx_iff_getElem?.mpr hi)
    obtain ⟨s', hs', htext⟩ := htracks.text_leaf ht
    have heq : s' = s := by
      have := (htracks.canonical.mem_leaves.mp hs').symm.trans (htracks.canonical.mem_leaves.mp hs)
      simpa using this
    have horig : plan.original = s := by
      have := hplan.text.symm.trans htext
      rw [heq] at this
      exact Except.ok.inj this
    obtain ⟨copied, hred⟩ := hred hl
    obtain ⟨found, hscan, hfind⟩ := hplan.findings
    rw [horig] at hred hscan hfind
    exact ⟨found, copied, hscan, hfind ▸ hred⟩

theorem protect_protected (u : Unicode) (serde : SerdeJson) (engine : PrivacyEngine R)
    (body : List UInt8) (scope : SessionScope) (now : Nat) :
    Protected u serde engine body scope now (protect u serde engine body scope now).1
      (protect u serde engine body scope now).2.ledger := by
  unfold protect
  split
  · exact .refused (.inl ‹_›)
  rename_i hsize
  split
  · rename_i e he
    exact .refused (.inr ⟨e, he⟩)
  rename_i request hparse
  have h := outcome_plan u engine request scope now
  generalize hplan : engine.plan u request scope now = r at h
  obtain ⟨e | plans, ledger⟩ := r
  · exact .unplanned hparse h.1 h.2
  simp only
  have judged : Judged u serde engine body scope now request plans ledger :=
    ⟨Nat.le_of_not_lt hsize, hparse, hplan, h.1, h.2⟩
  split
  · rename_i hb
    exact .blocked judged ((blocks_plans judged.planned).mp hb)
  · rename_i hb
    exact forward_protected judged fun hf => hb ((blocks_plans judged.planned).mpr hf)

end PrivacyEngine

end AgentVeil
