import AgentVeil.Detector.Lemmas.Views
import AgentVeil.Detector.Scanner

/-!
# Overlaps

The resolved spans are disjoint and in order. Each finding lies inside one of them, under an action
at least as strong as its own, and each of them stands for a finding inside it.
-/

namespace AgentVeil

open Rust

variable {source : Str}

/-- The span and action `g` cover the finding `f`. -/
structure Covers (g f : Finding × Action) : Prop where
  start : g.1.sourceSpan.start ≤ f.1.sourceSpan.start
  stop : f.1.sourceSpan.stop ≤ g.1.sourceSpan.stop
  action : f.2.precedence ≤ g.2.precedence

/-- `g` is the finding `f` on a wider span. -/
structure Widens (g f : Finding × Action) : Prop where
  start : g.1.sourceSpan.start ≤ f.1.sourceSpan.start
  stop : f.1.sourceSpan.stop ≤ g.1.sourceSpan.stop
  action : g.2 = f.2
  finding : g.1 = { f.1 with sourceSpan := g.1.sourceSpan }

/-- The resolved findings of a list of findings in the source. -/
structure Resolves (source : Str) (findings resolved : List (Finding × Action)) : Prop where
  ordered : resolved.Pairwise fun a b => a.1.sourceSpan.stop ≤ b.1.sourceSpan.start
  ranges : ∀ g ∈ resolved, SourceRange source g.1.sourceSpan
  covers : ∀ f ∈ findings, ∃ g ∈ resolved, Covers g f
  origin : ∀ g ∈ resolved, ∃ f ∈ findings, Widens g f

theorem Resolves.nil : Resolves source [] [] := ⟨.nil, by simp, by simp, by simp⟩

theorem Resolves.append {l₁ l₂ r₁ r₂ : List (Finding × Action)} (h₁ : Resolves source l₁ r₁)
    (h₂ : Resolves source l₂ r₂)
    (hle : ∀ a ∈ r₁, ∀ b ∈ r₂, a.1.sourceSpan.stop ≤ b.1.sourceSpan.start) :
    Resolves source (l₁ ++ l₂) (r₁ ++ r₂) where
  ordered := List.pairwise_append.mpr ⟨h₁.ordered, h₂.ordered, hle⟩
  ranges g hg := (List.mem_append.mp hg).elim (h₁.ranges g) (h₂.ranges g)
  covers f hf := by
    rcases List.mem_append.mp hf with hf | hf
    · obtain ⟨g, hg, hc⟩ := h₁.covers f hf
      exact ⟨g, List.mem_append_left _ hg, hc⟩
    · obtain ⟨g, hg, hc⟩ := h₂.covers f hf
      exact ⟨g, List.mem_append_right _ hg, hc⟩
  origin g hg := by
    rcases List.mem_append.mp hg with hg | hg
    · obtain ⟨f, hf, hw⟩ := h₁.origin g hg
      exact ⟨f, List.mem_append_left _ hf, hw⟩
    · obtain ⟨f, hf, hw⟩ := h₂.origin g hg
      exact ⟨f, List.mem_append_right _ hf, hw⟩

/-- The order and repetition of the findings do not matter. -/
theorem Resolves.congr {l₁ l₂ r : List (Finding × Action)} (h : Resolves source l₁ r)
    (hl : ∀ f, f ∈ l₁ ↔ f ∈ l₂) : Resolves source l₂ r where
  ordered := h.ordered
  ranges := h.ranges
  covers f hf := h.covers f ((hl f).mpr hf)
  origin g hg := by
    obtain ⟨f, hf, hw⟩ := h.origin g hg
    exact ⟨f, (hl f).mp hf, hw⟩

/-- The members of an open component and the span they fill. -/
structure Component (source : Str) (start stop : Nat) (component : List (Finding × Action)) :
    Prop where
  nonempty : component ≠ []
  range : SourceRange source ⟨start, stop⟩
  start_le : ∀ f ∈ component, start ≤ f.1.sourceSpan.start
  le_stop : ∀ f ∈ component, f.1.sourceSpan.stop ≤ stop

theorem Component.one {f : Finding × Action} (h : SourceRange source f.1.sourceSpan) :
    Component source f.1.sourceSpan.start f.1.sourceSpan.stop [f] where
  nonempty := by simp
  range := h
  start_le g hg := by rw [List.mem_singleton.mp hg]
  le_stop g hg := by rw [List.mem_singleton.mp hg]

theorem Component.extend {start stop : Nat} {component : List (Finding × Action)}
    (h : Component source start stop component) {f : Finding × Action}
    (hf : SourceRange source f.1.sourceSpan) (hstart : start ≤ f.1.sourceSpan.start) :
    Component source start (max stop f.1.sourceSpan.stop) (component ++ [f]) where
  nonempty := by simp
  range := by
    refine ⟨Nat.lt_of_lt_of_le h.range.lt (Nat.le_max_left _ _), h.range.start, ?_⟩
    rcases Nat.le_total stop f.1.sourceSpan.stop with hle | hle
    · rw [Nat.max_eq_right hle]; exact hf.stop
    · rw [Nat.max_eq_left hle]; exact h.range.stop
  start_le g hg := by
    rcases List.mem_append.mp hg with hg | hg
    · exact h.start_le g hg
    · rw [List.mem_singleton.mp hg]; exact hstart
  le_stop g hg := by
    rcases List.mem_append.mp hg with hg | hg
    · exact Nat.le_trans (h.le_stop g hg) (Nat.le_max_left _ _)
    · rw [List.mem_singleton.mp hg]; exact Nat.le_max_right _ _

theorem strengthLe_total (a b : Finding × Action) :
    strengthLe a b = true ∨ strengthLe b a = true := by
  simp only [strengthLe, Bool.or_eq_true, Bool.and_eq_true, decide_eq_true_eq]
  omega

theorem strengthLe_trans (a b c : Finding × Action) (hab : strengthLe a b = true)
    (hbc : strengthLe b c = true) : strengthLe a c = true := by
  simp only [strengthLe, Bool.or_eq_true, Bool.and_eq_true, decide_eq_true_eq] at hab hbc ⊢
  omega

theorem precedence_le_of_strengthLe {a b : Finding × Action} (h : strengthLe a b = true) :
    a.2.precedence ≤ b.2.precedence := by
  simp only [strengthLe, Bool.or_eq_true, Bool.and_eq_true, decide_eq_true_eq] at h
  omega

/-- A finished component gives one resolved finding on its span. -/
theorem Component.strongest {start stop : Nat} {component : List (Finding × Action)}
    (h : Component source start stop component) :
    ∃ g, AgentVeil.strongest start stop component = [g] ∧ g.1.sourceSpan = ⟨start, stop⟩ ∧
      Resolves source component [g] := by
  unfold AgentVeil.strongest
  cases hm : maxBy strengthLe component with
  | none => exact absurd (maxBy_eq_none hm) h.nonempty
  | some f =>
      have hf := mem_of_maxBy hm
      refine ⟨({ f.1 with sourceSpan := ⟨start, stop⟩ }, f.2), rfl, rfl, ?_⟩
      refine ⟨List.pairwise_singleton _ _, ?_, fun a ha => ⟨_, List.mem_singleton_self _, ?_⟩, ?_⟩
      · intro g hg
        rw [List.mem_singleton.mp hg]; exact h.range
      · have hle := le_maxBy strengthLe_total strengthLe_trans hm a ha
        exact ⟨h.start_le a ha, h.le_stop a ha, (precedence_le_of_strengthLe hle : _ ≤ _)⟩
      · intro g hg
        rw [List.mem_singleton.mp hg]
        exact ⟨f, hf, h.start_le f hf, h.le_stop f hf, rfl, rfl⟩

/-- The loop over findings in order, with an open component before them. -/
theorem resolves_mergeFrom {start stop : Nat} {component rest : List (Finding × Action)}
    (h : Component source start stop component)
    (hrest : ∀ f ∈ rest, SourceRange source f.1.sourceSpan)
    (hord : rest.Pairwise fun a b => a.1.sourceSpan.start ≤ b.1.sourceSpan.start)
    (hstart : ∀ f ∈ rest, start ≤ f.1.sourceSpan.start) :
    Resolves source (component ++ rest) (mergeFrom start stop component rest) ∧
      ∀ g ∈ mergeFrom start stop component rest, start ≤ g.1.sourceSpan.start := by
  induction rest generalizing start stop component with
  | nil =>
      obtain ⟨g, hg, hspan, hr⟩ := h.strongest
      simp only [mergeFrom, hg, List.append_nil]
      refine ⟨hr, fun x hx => ?_⟩
      rw [List.mem_singleton.mp hx, hspan]
  | cons f rest ih =>
      obtain ⟨hf, hrest⟩ := List.forall_mem_cons.mp hrest
      obtain ⟨hfs, hstart⟩ := List.forall_mem_cons.mp hstart
      obtain ⟨hfle, hord⟩ := List.pairwise_cons.mp hord
      by_cases hov : f.1.sourceSpan.start < stop
      · rw [mergeFrom, if_pos hov]
        have := ih (h.extend hf hfs) hrest hord hstart
        rwa [List.append_assoc] at this
      · rw [mergeFrom, if_neg hov]
        obtain ⟨g, hg, hspan, hr⟩ := h.strongest
        obtain ⟨hr', hge⟩ := ih (Component.one hf) hrest hord hfle
        rw [hg]
        have hstop : g.1.sourceSpan.stop = stop := by rw [hspan]
        have hgs : g.1.sourceSpan.start = start := by rw [hspan]
        refine ⟨hr.append hr' fun a ha b hb => ?_, fun x hx => ?_⟩
        · rw [List.mem_singleton.mp ha, hstop]
          exact Nat.le_trans (Nat.le_of_not_lt hov) (hge b hb)
        · rcases List.mem_append.mp hx with hx | hx
          · rw [List.mem_singleton.mp hx, hgs]
          · exact Nat.le_trans hfs (hge x hx)

theorem spanLe_total (a b : Finding × Action) : spanLe a b = true ∨ spanLe b a = true := by
  simp only [spanLe, Bool.or_eq_true, Bool.and_eq_true, decide_eq_true_eq]
  omega

theorem spanLe_trans (a b c : Finding × Action) (hab : spanLe a b = true)
    (hbc : spanLe b c = true) : spanLe a c = true := by
  simp only [spanLe, Bool.or_eq_true, Bool.and_eq_true, decide_eq_true_eq] at hab hbc ⊢
  omega

theorem start_le_of_spanLe {a b : Finding × Action} (h : spanLe a b = true) :
    a.1.sourceSpan.start ≤ b.1.sourceSpan.start := by
  simp only [spanLe, Bool.or_eq_true, Bool.and_eq_true, decide_eq_true_eq] at h
  omega

theorem resolves_resolveOverlaps {findings : List (Finding × Action)}
    (h : ∀ f ∈ findings, SourceRange source f.1.sourceSpan) :
    Resolves source findings (resolveOverlaps findings) := by
  have hord := (pairwise_sortBy spanLe_total spanLe_trans findings).imp start_le_of_spanLe
  have hmem : ∀ f, f ∈ sortBy spanLe findings ↔ f ∈ findings := fun f => mem_sortBy
  unfold resolveOverlaps
  cases hs : sortBy spanLe findings with
  | nil =>
      rw [hs] at hmem
      exact Resolves.nil.congr hmem
  | cons f rest =>
      rw [hs] at hmem hord
      have hr : ∀ g ∈ f :: rest, SourceRange source g.1.sourceSpan := fun g hg =>
        h g ((hmem g).mp hg)
      obtain ⟨hle, hord⟩ := List.pairwise_cons.mp hord
      obtain ⟨hf, hrest⟩ := List.forall_mem_cons.mp hr
      exact (resolves_mergeFrom (Component.one hf) hrest hord hle).1.congr hmem

/-- The findings contain a block exactly when the resolved findings do. -/
theorem Resolves.block_iff {findings resolved : List (Finding × Action)}
    (h : Resolves source findings resolved) :
    (∃ g ∈ resolved, g.2 = .block) ↔ ∃ f ∈ findings, f.2 = .block := by
  constructor
  · intro ⟨g, hg, hb⟩
    obtain ⟨f, hf, hw⟩ := h.origin g hg
    exact ⟨f, hf, hw.action ▸ hb⟩
  · intro ⟨f, hf, hb⟩
    obtain ⟨g, hg, hc⟩ := h.covers f hf
    refine ⟨g, hg, ?_⟩
    have hle := hc.action
    rw [hb] at hle
    cases hga : g.2 with
    | block => rfl
    | mask | tokenize | allow => rw [hga] at hle; exact absurd hle (by decide)

end AgentVeil
