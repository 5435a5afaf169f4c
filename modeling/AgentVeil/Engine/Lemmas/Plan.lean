import AgentVeil.Detector.Lemmas.Overlaps
import AgentVeil.Detector.Theorems
import AgentVeil.Engine
import AgentVeil.Ledger.Theorems

/-!
# The plans of a request

Planning changes nothing that is unexpired, and it ends in a plan for every target unless some target
does not scan.
-/

namespace AgentVeil

open Rust

/-! ## Outcomes -/

section Outcomes

variable {σ ε α β : Type}

/-- What holds of a result and of the state it leaves behind. -/
def Outcome (ok : β → σ → Prop) (fail : ε → σ → Prop) : Except ε β × σ → Prop
  | (.ok b, s) => ok b s
  | (.error e, s) => fail e s

/-- What every step of a loop keeps, whether it fails or not. -/
theorem loop_invariant {inv : σ → Prop} {f : α → σ → Except ε β × σ} {l : List α}
    (step : ∀ a s, inv s → inv (f a s).2) {s : σ} (hs : inv s) : inv (loop f l s).2 := by
  induction l generalizing s with
  | nil => exact hs
  | cons a l ih =>
      have h := step a s hs
      unfold loop
      generalize f a s = r at h
      obtain ⟨e | b, s₁⟩ := r
      · exact h
      · have ih := ih h
        simp only
        generalize loop f l s₁ = r at ih
        obtain ⟨e | bs, s₂⟩ := r
        · exact ih
        · exact ih

/-- The rule of loops: `inv` holds between the steps. -/
theorem outcome_loop {inv : σ → Prop} {post : α → β → Prop} {fail : ε → σ → Prop}
    {f : α → σ → Except ε β × σ} {l : List α}
    (step : ∀ a ∈ l, ∀ s, inv s → Outcome (fun b s' => inv s' ∧ post a b) fail (f a s)) {s : σ}
    (hs : inv s) :
    Outcome (fun bs s' => inv s' ∧ List.Forall₂ post l bs) fail (loop f l s) := by
  induction l generalizing s with
  | nil => exact ⟨hs, .nil⟩
  | cons a l ih =>
      obtain ⟨hstep, hrest⟩ := List.forall_mem_cons.mp step
      have ha := hstep s hs
      unfold loop
      split <;> rename_i hf <;> rw [hf] at ha
      · exact ha
      · have hl := ih hrest ha.1
        split <;> rename_i hr <;> rw [hr] at hl
        · exact hl
        · exact ⟨hl.1, .cons ha.2 hl.2⟩

end Outcomes

/-! ## Unexpired entries -/

section Live

variable {R : Type}

/-- Nothing unexpired is different, and no token was drawn. -/
structure SameLive (now : Nat) (l l' : TokenLedger R) : Prop where
  entries : ∀ t e, now < e.expiresAtMs → (l'.entries.get t = some e ↔ l.entries.get t = some e)
  maxEntries : l'.maxEntries = l.maxEntries
  sequence : l'.sequence = l.sequence
  random : l'.random = l.random

theorem SameLive.refl (now : Nat) (l : TokenLedger R) : SameLive now l l :=
  ⟨fun _ _ _ => Iff.rfl, rfl, rfl, rfl⟩

theorem SameLive.trans {now : Nat} {l₁ l₂ l₃ : TokenLedger R} (h : SameLive now l₁ l₂)
    (h' : SameLive now l₂ l₃) : SameLive now l₁ l₃ where
  entries t e hx := (h'.entries t e hx).trans (h.entries t e hx)
  maxEntries := h'.maxEntries.trans h.maxEntries
  sequence := h'.sequence.trans h.sequence
  random := h'.random.trans h.random

theorem sameLive_purgeExpired (l : TokenLedger R) (now : Nat) :
    SameLive now l (l.purgeExpired now) where
  entries _ _ hx := TokenLedger.get_purgeExpired.trans (and_iff_left hx)
  maxEntries := rfl
  sequence := rfl
  random := rfl

theorem SameLive.ownsToken {now : Nat} {l l' : TokenLedger R} (h : SameLive now l l')
    (scope : SessionScope) (t : Token) :
    (l'.ownsToken scope t now).1 = (l.ownsToken scope t now).1 := by
  rw [Bool.eq_iff_iff, ownsToken_eq_true, ownsToken_eq_true]
  constructor
  · intro ⟨e, he, hs, hx⟩; exact ⟨e, (h.entries t e hx).mp he, hs, hx⟩
  · intro ⟨e, he, hs, hx⟩; exact ⟨e, (h.entries t e hx).mpr he, hs, hx⟩

end Live

namespace PrivacyEngine

variable {R : Type}

/-! ## Actions -/

/-- The source text of the finding is a token of the scope. -/
def ownsFinding (ledger : TokenLedger R) (scope : SessionScope) (nowMs : Nat) (text : Str)
    (f : Finding) : Bool :=
  (get? text f.sourceSpan).any fun candidate => (ledger.ownsToken scope candidate nowMs).1

/-- The action on a finding: a token of the scope is allowed, anything else has the action of its
class, and a target that cannot be rewritten blocks instead. -/
def effectiveAction (policy : ValidatedPolicy) (ledger : TokenLedger R) (scope : SessionScope)
    (nowMs : Nat) (mode : RewriteMode) (text : Str) (f : Finding) : Action :=
  if f.dataClass = .tokenNamespace ∧ ownsFinding ledger scope nowMs text f = true then .allow
  else escalate mode (policy.ruleFor f.dataClass).action

@[simp] theorem escalate_allow (mode : RewriteMode) : escalate mode .allow = .allow := by
  simp [escalate]

/-- A target that is not rewritten has only allowed findings, unless it blocks. -/
theorem effectiveAction_blockOnly (policy : ValidatedPolicy) (ledger : TokenLedger R)
    (scope : SessionScope) (now : Nat) (text : Str) (f : Finding) :
    effectiveAction policy ledger scope now .blockOnly text f = .block ∨
      effectiveAction policy ledger scope now .blockOnly text f = .allow := by
  unfold effectiveAction escalate
  split
  · exact .inr rfl
  · split
    · exact .inl rfl
    · rename_i h
      exact .inr (by simpa using h)

theorem planFinding_eq (policy : ValidatedPolicy) (scope : SessionScope) (now : Nat)
    (mode : RewriteMode) {text : Str} {f : Finding} (hf : SourceRange text f.sourceSpan)
    {ledger l : TokenLedger R} (hl : SameLive now ledger l) :
    ∃ l', planFinding policy scope now mode text f l
        = (.ok (f, effectiveAction policy ledger scope now mode text f), l') ∧
      SameLive now ledger l' := by
  unfold planFinding effectiveAction ownsFinding
  by_cases hc : f.dataClass = .tokenNamespace
  · obtain ⟨candidate, hget⟩ := get?_isSome_of_boundary hf.start hf.stop (Nat.le_of_lt hf.lt)
    simp only [hc, ↓reduceIte, hget, true_and, Option.any_some]
    refine ⟨(l.ownsToken scope candidate now).2, ?_, hl.trans (sameLive_purgeExpired l now)⟩
    rw [← hl.ownsToken scope candidate]
    cases (l.ownsToken scope candidate now).1 with
    | true => simp
    | false => simp
  · simp only [hc, ↓reduceIte, false_and]
    exact ⟨l, rfl, hl⟩

/-! ## Plans -/

/-- The findings of a scan, each with its action. -/
def actions (policy : ValidatedPolicy) (ledger : TokenLedger R) (scope : SessionScope) (nowMs : Nat)
    (mode : RewriteMode) (text : Str) (found : List Finding) : List (Finding × Action) :=
  found.map fun f => (f, effectiveAction policy ledger scope nowMs mode text f)

/-- The plan of a target. -/
structure Planned (u : Unicode) (policy : ValidatedPolicy) (request : ValidatedRequest)
    (ledger : TokenLedger R) (scope : SessionScope) (nowMs : Nat) (target : TextTarget × Nat)
    (plan : TargetPlan) : Prop where
  index : plan.targetIndex = target.2
  text : request.text target.1 = .ok plan.original
  findings : ∃ found, (Scanner.new policy.detectors).scan u plan.original = .ok found ∧
    plan.findings
      = resolveOverlaps (actions policy ledger scope nowMs target.1.mode plan.original found)

/-- The text of the target scans. -/
def TargetScans (u : Unicode) (policy : ValidatedPolicy) (request : ValidatedRequest)
    (target : TextTarget) : Prop :=
  ∃ text found, request.text target = .ok text ∧
    (Scanner.new policy.detectors).scan u text = .ok found

theorem loop_planFinding (policy : ValidatedPolicy) (scope : SessionScope) (now : Nat)
    (mode : RewriteMode) {text : Str} {found : List Finding}
    (hf : ∀ f ∈ found, SourceRange text f.sourceSpan) {ledger l : TokenLedger R}
    (hl : SameLive now ledger l) :
    ∃ l', loop (planFinding policy scope now mode text) found l
        = (.ok (actions policy ledger scope now mode text found), l') ∧ SameLive now ledger l' := by
  induction found generalizing l with
  | nil => exact ⟨l, rfl, hl⟩
  | cons f found ih =>
      obtain ⟨hf, hrest⟩ := List.forall_mem_cons.mp hf
      obtain ⟨l₁, h₁, hl₁⟩ := planFinding_eq policy scope now mode hf hl
      obtain ⟨l₂, h₂, hl₂⟩ := ih hrest hl₁
      exact ⟨l₂, by simp only [loop, h₁, h₂, actions, List.map_cons], hl₂⟩

theorem scan_ranges (u : Unicode) (policy : ValidatedPolicy) {text : Str} {found : List Finding}
    (h : (Scanner.new policy.detectors).scan u text = .ok found) :
    ∀ f ∈ found, SourceRange text f.sourceSpan :=
  scan_sourceRange u (Scanner.configured_new policy.detectors_valid) h

theorem outcome_planTarget (u : Unicode) (policy : ValidatedPolicy) (request : ValidatedRequest)
    (scope : SessionScope) (now : Nat) (target : TextTarget × Nat) {ledger l : TokenLedger R}
    (hl : SameLive now ledger l) :
    Outcome (fun plan l' => SameLive now ledger l' ∧
        Planned u policy request ledger scope now target plan)
      (fun _ l' => SameLive now ledger l' ∧ ¬TargetScans u policy request target.1)
      (planTarget u policy request scope now target l) := by
  unfold planTarget
  split
  · rename_i e he
    exact ⟨hl, fun ⟨text, found, ht, _⟩ => by rw [he] at ht; cases ht⟩
  rename_i text ht
  split
  · rename_i e he
    refine ⟨hl, fun ⟨text', found, ht', hs⟩ => ?_⟩
    rw [ht] at ht'
    cases ht'
    rw [he] at hs
    cases hs
  · rename_i found hs
    obtain ⟨l', hloop, hl'⟩ :=
      loop_planFinding policy scope now target.1.mode (scan_ranges u policy hs) hl
    rw [hloop]
    exact ⟨hl', rfl, ht, found, hs, rfl⟩

theorem outcome_plan (u : Unicode) (engine : PrivacyEngine R) (request : ValidatedRequest)
    (scope : SessionScope) (now : Nat) :
    Outcome (fun plans l' => SameLive now engine.ledger l' ∧
        List.Forall₂ (Planned u engine.policy request engine.ledger scope now)
          request.targets.zipIdx plans)
      (fun _ l' => SameLive now engine.ledger l' ∧
        ∃ target ∈ request.targets, ¬TargetScans u engine.policy request target)
      (engine.plan u request scope now) := by
  refine outcome_loop (fun target ht l hl => ?_) (SameLive.refl now engine.ledger)
  have h := outcome_planTarget u engine.policy request scope now target hl
  generalize planTarget u engine.policy request scope now target l = r at h
  obtain ⟨e | plan, l'⟩ := r
  · exact ⟨h.1, target.1, List.fst_mem_of_mem_zipIdx ht, h.2⟩
  · exact h

theorem resolves_actions (u : Unicode) (policy : ValidatedPolicy) (ledger : TokenLedger R)
    (scope : SessionScope) (now : Nat) (mode : RewriteMode) {text : Str} {found : List Finding}
    (h : (Scanner.new policy.detectors).scan u text = .ok found) :
    Resolves text (actions policy ledger scope now mode text found)
      (resolveOverlaps (actions policy ledger scope now mode text found)) := by
  refine resolves_resolveOverlaps fun f hf => ?_
  obtain ⟨g, hg, rfl⟩ := List.mem_map.mp hf
  exact scan_ranges u policy h g hg

/-- A plan resolves the findings of its target. -/
theorem Planned.resolves {u : Unicode} {policy : ValidatedPolicy} {request : ValidatedRequest}
    {ledger : TokenLedger R} {scope : SessionScope} {now : Nat} {target : TextTarget × Nat}
    {plan : TargetPlan} (h : Planned u policy request ledger scope now target plan) :
    ∃ found, (Scanner.new policy.detectors).scan u plan.original = .ok found ∧
      Resolves plan.original (actions policy ledger scope now target.1.mode plan.original found)
        plan.findings := by
  obtain ⟨found, hs, hf⟩ := h.findings
  exact ⟨found, hs, hf ▸ resolves_actions u policy ledger scope now target.1.mode hs⟩

/-- A target that is not rewritten allows or blocks. -/
theorem Planned.blockOnly {u : Unicode} {policy : ValidatedPolicy} {request : ValidatedRequest}
    {ledger : TokenLedger R} {scope : SessionScope} {now : Nat} {target : TextTarget × Nat}
    {plan : TargetPlan} (h : Planned u policy request ledger scope now target plan)
    (hmode : target.1.mode = .blockOnly) : ∀ f ∈ plan.findings, f.2 = .allow ∨ f.2 = .block := by
  obtain ⟨found, _, hres⟩ := h.resolves
  intro g hg
  obtain ⟨_, hmem, hw⟩ := hres.origin g hg
  obtain ⟨f, _, rfl⟩ := List.mem_map.mp hmem
  rw [hw.action, hmode]
  exact (effectiveAction_blockOnly policy ledger scope now plan.original f).symm

end PrivacyEngine

end AgentVeil
