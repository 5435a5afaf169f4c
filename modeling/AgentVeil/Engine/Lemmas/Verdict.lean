import AgentVeil.Engine.Lemmas.Plan

/-!
# The verdict

An action is in the summary exactly when some plan has it, and a plan blocks exactly when one of the
findings of its target does.
-/

namespace AgentVeil

open Rust

/-! ## Summaries -/

theorem exists_countFinding {summaries : List FindingSummary} {f : FieldClass × Finding × Action}
    {a : Action} : (∃ s ∈ countFinding summaries f, s.action = a) ↔
      (∃ s ∈ summaries, s.action = a) ∨ f.2.2 = a := by
  induction summaries with
  | nil => simp [countFinding]
  | cons s rest ih =>
      simp only [countFinding]
      split
      · rename_i h
        simp only [List.exists_mem_cons_iff, h.2.2.2.1]
        exact ⟨.inl, fun h => h.elim id .inl⟩
      · simp only [List.exists_mem_cons_iff, ih]
        exact or_assoc.symm

theorem exists_foldl_countFinding {l : List (FieldClass × Finding × Action)}
    {summaries : List FindingSummary} {a : Action} :
    (∃ s ∈ l.foldl countFinding summaries, s.action = a) ↔
      (∃ s ∈ summaries, s.action = a) ∨ ∃ f ∈ l, f.2.2 = a := by
  induction l generalizing summaries with
  | nil => simp
  | cons f l ih =>
      simp only [List.foldl_cons, ih, exists_countFinding, List.exists_mem_cons_iff]
      exact or_assoc

/-- The summary has the actions of the plans. -/
theorem exists_summarize {plans : List TargetPlan} {a : Action} :
    (∃ s ∈ (summarize plans).findings, s.action = a) ↔
      ∃ plan ∈ plans, ∃ f ∈ plan.findings, f.2 = a := by
  simp only [summarize, mem_sortBy, exists_foldl_countFinding, List.not_mem_nil, false_and,
    exists_false, false_or, List.mem_flatMap, List.mem_map]
  constructor
  · rintro ⟨_, ⟨plan, hp, g, hg, rfl⟩, ha⟩
    exact ⟨plan, hp, g, hg, ha⟩
  · rintro ⟨plan, hp, g, hg, ha⟩
    exact ⟨_, ⟨plan, hp, g, hg, rfl⟩, ha⟩

theorem blocks_summarize {plans : List TargetPlan} : (summarize plans).blocks = true ↔
    ∃ plan ∈ plans, ∃ f ∈ plan.findings, f.2 = .block := by
  rw [← exists_summarize]
  simp [ProtectionSummary.blocks]

theorem decision_summarize {plans : List TargetPlan} : (summarize plans).decision = .rewritten ↔
    ∃ plan ∈ plans, ∃ f ∈ plan.findings, f.2 = .mask ∨ f.2 = .tokenize := by
  have hany : (summarize plans).decision = .rewritten ↔
      (∃ s ∈ (summarize plans).findings, s.action = .mask) ∨
        ∃ s ∈ (summarize plans).findings, s.action = .tokenize := by
    unfold ProtectionSummary.decision
    split
    · rename_i h
      simpa [and_or_left, exists_or] using h
    · rename_i h
      simpa [and_or_left, exists_or, not_or] using h
  rw [hany, exists_summarize, exists_summarize]
  constructor
  · intro h
    rcases h with ⟨plan, hp, f, hf, ha⟩ | ⟨plan, hp, f, hf, ha⟩
    · exact ⟨plan, hp, f, hf, .inl ha⟩
    · exact ⟨plan, hp, f, hf, .inr ha⟩
  · intro ⟨plan, hp, f, hf, ha⟩
    exact ha.imp (fun ha => ⟨plan, hp, f, hf, ha⟩) fun ha => ⟨plan, hp, f, hf, ha⟩

namespace PrivacyEngine

variable {R : Type}

/-- Some finding of some target has the effective action `Block`. -/
def FindsBlock (u : Unicode) (engine : PrivacyEngine R) (request : ValidatedRequest)
    (scope : SessionScope) (nowMs : Nat) : Prop :=
  ∃ target ∈ request.targets, ∃ text found, request.text target = .ok text ∧
    engine.scanner.scan u text = .ok found ∧
    ∃ f ∈ found,
      effectiveAction engine.policy engine.ledger scope nowMs target.mode text f = .block

theorem blocks_plans {u : Unicode} {engine : PrivacyEngine R} {request : ValidatedRequest}
    {scope : SessionScope} {now : Nat} {plans : List TargetPlan}
    (h : List.Forall₂ (Planned u engine.policy request engine.ledger scope now)
      request.targets.zipIdx plans) :
    (summarize plans).blocks = true ↔ FindsBlock u engine request scope now := by
  obtain ⟨hplan, htarget⟩ := exists_of_forall₂ h
  rw [blocks_summarize]
  constructor
  · intro ⟨plan, hp, hblock⟩
    obtain ⟨target, ht, hplanned⟩ := htarget plan hp
    obtain ⟨found, hs, hr⟩ := hplanned.resolves
    obtain ⟨f, hf, hb⟩ := hr.block_iff.mp hblock
    obtain ⟨g, hg, rfl⟩ := List.mem_map.mp hf
    exact ⟨target.1, List.fst_mem_of_mem_zipIdx ht, plan.original, found, hplanned.text, hs, g, hg,
      hb⟩
  · intro ⟨target, ht, text, found, htext, hs, f, hf, hb⟩
    obtain ⟨i, hi⟩ := List.mem_iff_getElem?.mp ht
    obtain ⟨plan, hp, hplanned⟩ := hplan (target, i)
      (List.mk_mem_zipIdx_iff_getElem?.mpr hi)
    obtain ⟨found', hs', hr⟩ := hplanned.resolves
    have htext' := hplanned.text
    rw [htext, Except.ok.injEq] at htext'
    subst htext'
    have hfound : found = found' := by
      have := hs.symm.trans hs'
      exact Except.ok.inj this
    subst hfound
    exact ⟨plan, hp, hr.block_iff.mpr ⟨_, List.mem_map.mpr ⟨f, hf, rfl⟩, hb⟩⟩

end PrivacyEngine

end AgentVeil
