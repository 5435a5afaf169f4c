import AgentVeil.Detector.Lemmas.Overlaps
import Mathlib.Data.List.Pairwise

/-!
# Overlap resolution is an interval merge

The resolved spans fill what the spans of the findings fill, and the order of the findings does not
matter.
-/

namespace AgentVeil

open Rust

variable {findings : List (Finding × Action)}

/-- The byte `n` lies in the span of the finding. -/
def Fills (f : Finding × Action) (n : Nat) : Prop :=
  f.1.sourceSpan.start ≤ n ∧ n < f.1.sourceSpan.stop

/-- The span of `f` lies inside the span of `g`. -/
def Inside (f g : Finding × Action) : Prop :=
  g.1.sourceSpan.start ≤ f.1.sourceSpan.start ∧ f.1.sourceSpan.stop ≤ g.1.sourceSpan.stop

/-- The span of the finding is not empty. -/
def NonEmpty (f : Finding × Action) : Prop := f.1.sourceSpan.start < f.1.sourceSpan.stop

/-! ## A text for the spans -/

theorem exists_stop_le (findings : List (Finding × Action)) :
    ∃ n, ∀ f ∈ findings, f.1.sourceSpan.stop ≤ n := by
  induction findings with
  | nil => exact ⟨0, by simp⟩
  | cons f fs ih =>
      obtain ⟨n, hn⟩ := ih
      exact ⟨max f.1.sourceSpan.stop n, List.forall_mem_cons.mpr ⟨Nat.le_max_left _ _,
        fun g hg => Nat.le_trans (hn g hg) (Nat.le_max_right _ _)⟩⟩

/-- Spans that are not empty are ranges of some text. -/
theorem exists_sourceRanges (h : ∀ f ∈ findings, NonEmpty f) :
    ∃ source, ∀ f ∈ findings, SourceRange source f.1.sourceSpan := by
  obtain ⟨n, hn⟩ := exists_stop_le findings
  have hascii : ∀ c ∈ List.replicate n 'a', isAscii c = true := fun c hc => by
    rw [List.eq_of_mem_replicate hc]
    rfl
  have hboundary : ∀ i ≤ n, isCharBoundary (List.replicate n 'a') i = true := fun i hi =>
    isCharBoundary_of_isAscii hascii (by rw [len_of_isAscii hascii, List.length_replicate]; exact hi)
  refine ⟨List.replicate n 'a', fun f hf => ⟨h f hf, hboundary _ ?_, hboundary _ (hn f hf)⟩⟩
  exact Nat.le_trans (Nat.le_of_lt (h f hf)) (hn f hf)

/-! ## What the resolved spans fill -/

/-- An open component fills its span. -/
theorem filled_mergeFrom {start stop : Nat} {component rest : List (Finding × Action)}
    (hfilled : ∀ n, start ≤ n → n < stop → ∃ f ∈ component, Fills f n)
    (hord : rest.Pairwise fun a b => a.1.sourceSpan.start ≤ b.1.sourceSpan.start)
    (hstart : ∀ f ∈ rest, start ≤ f.1.sourceSpan.start) :
    ∀ g ∈ mergeFrom start stop component rest, ∀ n, Fills g n →
      ∃ f ∈ component ++ rest, Fills f n := by
  have hone : ∀ start stop component, (∀ n, start ≤ n → n < stop → ∃ f ∈ component, Fills f n) →
      ∀ g ∈ strongest start stop component, ∀ n, Fills g n → ∃ f ∈ component, Fills f n := by
    intro start stop component hfilled g hg n hn
    unfold strongest at hg
    cases hm : maxBy strengthLe component with
    | none =>
        rw [hm] at hg
        cases hg
    | some m =>
        rw [hm] at hg
        obtain rfl := List.mem_singleton.mp hg
        exact hfilled n hn.1 hn.2
  induction rest generalizing start stop component with
  | nil =>
      intro g hg n hn
      obtain ⟨f, hf, hfn⟩ := hone start stop component hfilled g hg n hn
      exact ⟨f, List.mem_append_left _ hf, hfn⟩
  | cons f rest ih =>
      obtain ⟨hfs, hstart⟩ := List.forall_mem_cons.mp hstart
      obtain ⟨hfle, hord⟩ := List.pairwise_cons.mp hord
      intro g hg n hn
      by_cases hov : f.1.sourceSpan.start < stop
      · rw [mergeFrom, if_pos hov] at hg
        have hwider : ∀ n, start ≤ n → n < max stop f.1.sourceSpan.stop →
            ∃ f' ∈ component ++ [f], Fills f' n := by
          intro n hle hlt
          by_cases hn : n < stop
          · obtain ⟨f', hf', hfn⟩ := hfilled n hle hn
            exact ⟨f', List.mem_append_left _ hf', hfn⟩
          · exact ⟨f, by simp, by omega, by omega⟩
        obtain ⟨f', hf', hfn⟩ := ih hwider hord hstart g hg n hn
        exact ⟨f', by simpa using hf', hfn⟩
      · rw [mergeFrom, if_neg hov] at hg
        rcases List.mem_append.mp hg with hg | hg
        · obtain ⟨f', hf', hfn⟩ := hone start stop component hfilled g hg n hn
          exact ⟨f', List.mem_append_left _ hf', hfn⟩
        · have hopen : ∀ n, f.1.sourceSpan.start ≤ n → n < f.1.sourceSpan.stop →
              ∃ f' ∈ [f], Fills f' n := fun n hle hlt => ⟨f, by simp, hle, hlt⟩
          obtain ⟨f', hf', hfn⟩ := ih hopen hord hfle g hg n hn
          exact ⟨f', List.mem_append_right _ (by simpa using hf'), hfn⟩

theorem filled_resolveOverlaps {g : Finding × Action} (hg : g ∈ resolveOverlaps findings) {n : Nat}
    (hn : Fills g n) : ∃ f ∈ findings, Fills f n := by
  have hord := (pairwise_sortBy spanLe_total spanLe_trans findings).imp start_le_of_spanLe
  have hmem : ∀ f, f ∈ sortBy spanLe findings ↔ f ∈ findings := fun f => mem_sortBy
  unfold resolveOverlaps at hg
  cases hs : sortBy spanLe findings with
  | nil =>
      rw [hs] at hg
      cases hg
  | cons f rest =>
      rw [hs] at hg hmem hord
      obtain ⟨hle, hord⟩ := List.pairwise_cons.mp hord
      have hopen : ∀ n, f.1.sourceSpan.start ≤ n → n < f.1.sourceSpan.stop → ∃ f' ∈ [f], Fills f' n :=
        fun n hle hlt => ⟨f, by simp, hle, hlt⟩
      obtain ⟨f', hf', hfn⟩ := filled_mergeFrom hopen hord hle g hg n hn
      exact ⟨f', (hmem f').mp (by simpa using hf'), hfn⟩

/-! ## The order of the findings -/

/-- The spans of `mergeFrom`, from the spans alone. -/
def mergeSpans (start stop : Nat) : List Span → List Span
  | [] => [⟨start, stop⟩]
  | s :: rest =>
      if s.start < stop then mergeSpans start (max stop s.stop) rest
      else ⟨start, stop⟩ :: mergeSpans s.start s.stop rest

theorem spans_mergeFrom {start stop : Nat} {component : List (Finding × Action)}
    (hne : component ≠ []) (rest : List (Finding × Action)) :
    (mergeFrom start stop component rest).map (·.1.sourceSpan)
      = mergeSpans start stop (rest.map (·.1.sourceSpan)) := by
  have hone : ∀ start stop (component : List (Finding × Action)), component ≠ [] →
      (strongest start stop component).map (·.1.sourceSpan) = [⟨start, stop⟩] := by
    intro start stop component hne
    unfold strongest
    cases hm : maxBy strengthLe component with
    | none => exact absurd (maxBy_eq_none hm) hne
    | some m => rfl
  induction rest generalizing start stop component with
  | nil => exact hone _ _ _ hne
  | cons f rest ih =>
      simp only [mergeFrom, List.map_cons, mergeSpans]
      split
      · exact ih (by simp)
      · rw [List.map_append, hone _ _ _ hne, ih (by simp)]
        rfl

/-- The sorted spans of findings with the same spans in another order. -/
theorem spans_sortBy {findings' : List (Finding × Action)}
    (h : (findings'.map (·.1.sourceSpan)).Perm (findings.map (·.1.sourceSpan))) :
    (sortBy spanLe findings').map (·.1.sourceSpan) = (sortBy spanLe findings).map (·.1.sourceSpan) := by
  have hsorted : ∀ l : List (Finding × Action), ((sortBy spanLe l).map (·.1.sourceSpan)).Pairwise
      fun a b => a.start < b.start ∨ a.start = b.start ∧ a.stop ≤ b.stop := fun l =>
    List.pairwise_map.mpr ((pairwise_sortBy spanLe_total spanLe_trans l).imp fun h => by
      simpa [spanLe] using h)
  have hperm : ((sortBy spanLe findings').map (·.1.sourceSpan)).Perm
      ((sortBy spanLe findings).map (·.1.sourceSpan)) :=
    (((perm_sortBy spanLe findings').map _).trans h).trans ((perm_sortBy spanLe findings).map _).symm
  refine List.Perm.eq_of_pairwise ?_ (hsorted findings') (hsorted findings) hperm
  rintro ⟨start, stop⟩ ⟨start', stop'⟩ _ _ hab hba
  simp only [Span.mk.injEq] at hab hba ⊢
  omega

theorem spans_resolveOverlaps {findings' : List (Finding × Action)}
    (h : (findings'.map (·.1.sourceSpan)).Perm (findings.map (·.1.sourceSpan))) :
    (resolveOverlaps findings').map (·.1.sourceSpan)
      = (resolveOverlaps findings).map (·.1.sourceSpan) := by
  have hspans := spans_sortBy h
  unfold resolveOverlaps
  cases hs : sortBy spanLe findings with
  | nil =>
      rw [hs] at hspans
      rw [List.map_eq_nil_iff.mp hspans]
  | cons f rest =>
      cases hs' : sortBy spanLe findings' with
      | nil =>
          rw [hs, hs'] at hspans
          cases hspans
      | cons f' rest' =>
          rw [hs, hs'] at hspans
          obtain ⟨hhead, htail⟩ := List.cons.inj hspans
          simp only [spans_mergeFrom (List.cons_ne_nil _ _), hhead, htail]

/-! ## The merge -/

/-- The resolved span that a finding lies in. -/
theorem inside_unique {f g g' : Finding × Action} (h : ∀ f ∈ findings, NonEmpty f)
    (hf : f ∈ findings) (hg : g ∈ resolveOverlaps findings) (hg' : g' ∈ resolveOverlaps findings)
    (hin : Inside f g) (hin' : Inside f g') : g = g' := by
  obtain ⟨source, hsource⟩ := exists_sourceRanges h
  have hlt := h f hf
  unfold Inside NonEmpty at *
  by_contra hne
  have hord := (resolves_resolveOverlaps hsource).ordered
  have hsymm : Std.Symm fun a b : Finding × Action =>
      a.1.sourceSpan.stop ≤ b.1.sourceSpan.start ∨ b.1.sourceSpan.stop ≤ a.1.sourceSpan.start :=
    ⟨fun _ _ h => h.symm⟩
  have := (hord.imp fun h => Or.inl h : (resolveOverlaps findings).Pairwise fun a b =>
    a.1.sourceSpan.stop ≤ b.1.sourceSpan.start ∨ b.1.sourceSpan.stop ≤ a.1.sourceSpan.start).forall
      hg hg' hne
  omega

/-- The action on a resolved span is the strongest of the findings inside it. -/
theorem action_resolveOverlaps {g : Finding × Action} (h : ∀ f ∈ findings, NonEmpty f)
    (hg : g ∈ resolveOverlaps findings) :
    (∀ f ∈ findings, Inside f g → f.2.precedence ≤ g.2.precedence) ∧
      ∃ f ∈ findings, Inside f g ∧ f.2 = g.2 ∧ f.1.dataClass = g.1.dataClass ∧
        f.1.detector = g.1.detector := by
  obtain ⟨source, hsource⟩ := exists_sourceRanges h
  have hres := resolves_resolveOverlaps hsource
  constructor
  · intro f hf hin
    obtain ⟨g', hg', hc⟩ := hres.covers f hf
    obtain rfl := inside_unique h hf hg hg' hin ⟨hc.start, hc.stop⟩
    exact hc.action
  · obtain ⟨f, hf, hw⟩ := hres.origin g hg
    refine ⟨f, hf, ⟨hw.start, hw.stop⟩, hw.action.symm, ?_, ?_⟩
    · rw [hw.finding]
    · rw [hw.finding]

/-- Stronger actions on the same findings: the resolved spans are the same, and the action on each is
at least as strong. -/
theorem resolveOverlaps_mono {found : List Finding} {a a' : Finding → Action}
    (h : ∀ f ∈ found, f.sourceSpan.start < f.sourceSpan.stop)
    (hle : ∀ f ∈ found, (a f).precedence ≤ (a' f).precedence) {g : Finding × Action}
    (hg : g ∈ resolveOverlaps (found.map fun f => (f, a f))) :
    ∃ g' ∈ resolveOverlaps (found.map fun f => (f, a' f)),
      g'.1.sourceSpan = g.1.sourceSpan ∧ g.2.precedence ≤ g'.2.precedence := by
  have hne : ∀ a : Finding → Action, ∀ p ∈ found.map (fun f => (f, a f)), NonEmpty p := by
    intro a p hp
    obtain ⟨f, hf, rfl⟩ := List.mem_map.mp hp
    exact h f hf
  have hspans : (resolveOverlaps (found.map fun f => (f, a f))).map (·.1.sourceSpan)
      = (resolveOverlaps (found.map fun f => (f, a' f))).map (·.1.sourceSpan) := by
    apply spans_resolveOverlaps
    simp only [List.map_map, Function.comp_def]
    exact List.Perm.refl _
  obtain ⟨g', hg', hspan⟩ := List.mem_map.mp (hspans ▸ List.mem_map_of_mem hg :
    g.1.sourceSpan ∈ (resolveOverlaps (found.map fun f => (f, a' f))).map (·.1.sourceSpan))
  -- the finding whose action `g` has lies inside `g'` too
  obtain ⟨_, p, hp, hin, hact, _⟩ := action_resolveOverlaps (hne a) hg
  obtain ⟨f, hf, rfl⟩ := List.mem_map.mp hp
  have hin' : Inside (f, a' f) g' := by
    unfold Inside at hin ⊢
    rw [hspan]
    exact hin
  refine ⟨g', hg', hspan, ?_⟩
  calc g.2.precedence = (a f).precedence := by rw [← hact]
    _ ≤ (a' f).precedence := hle f hf
    _ ≤ g'.2.precedence :=
      (action_resolveOverlaps (hne a') hg').1 _ (List.mem_map.mpr ⟨f, hf, rfl⟩) hin'

/-- Overlap resolution is a sound interval merge. The resolved spans are in order, disjoint and not
empty, and fill together what the spans of the findings fill. Every finding lies inside exactly one
of them. The action on a resolved span is the strongest of the findings inside it, and its class and
detector are those of a finding with that action. The spans and actions do not depend on the order
of the findings. -/
theorem resolveOverlaps_merges (h : ∀ f ∈ findings, NonEmpty f) :
    (resolveOverlaps findings).Pairwise (fun a b => a.1.sourceSpan.stop ≤ b.1.sourceSpan.start) ∧
    (∀ g ∈ resolveOverlaps findings, NonEmpty g) ∧
    (∀ n, (∃ g ∈ resolveOverlaps findings, Fills g n) ↔ ∃ f ∈ findings, Fills f n) ∧
    (∀ f ∈ findings, ∃! g, g ∈ resolveOverlaps findings ∧ Inside f g) ∧
    (∀ g ∈ resolveOverlaps findings,
      (∀ f ∈ findings, Inside f g → f.2.precedence ≤ g.2.precedence) ∧
      ∃ f ∈ findings, Inside f g ∧ f.2 = g.2 ∧ f.1.dataClass = g.1.dataClass ∧
        f.1.detector = g.1.detector) ∧
    ∀ findings' : List (Finding × Action), findings'.Perm findings →
      (resolveOverlaps findings').map (fun g => (g.1.sourceSpan, g.2))
        = (resolveOverlaps findings).map fun g => (g.1.sourceSpan, g.2) := by
  obtain ⟨source, hsource⟩ := exists_sourceRanges h
  have hres := resolves_resolveOverlaps hsource
  have hinside : ∀ f ∈ findings, ∃ g ∈ resolveOverlaps findings, Inside f g := fun f hf => by
    obtain ⟨g, hg, hc⟩ := hres.covers f hf
    exact ⟨g, hg, hc.start, hc.stop⟩
  refine ⟨hres.ordered, fun g hg => (hres.ranges g hg).lt, fun n => ⟨?_, ?_⟩, fun f hf => ?_,
    fun g hg => action_resolveOverlaps h hg, fun findings' hperm => ?_⟩
  · rintro ⟨g, hg, hn⟩
    exact filled_resolveOverlaps hg hn
  · rintro ⟨f, hf, hn⟩
    obtain ⟨g, hg, hin⟩ := hinside f hf
    exact ⟨g, hg, Nat.le_trans hin.1 hn.1, Nat.lt_of_lt_of_le hn.2 hin.2⟩
  · obtain ⟨g, hg, hin⟩ := hinside f hf
    exact ⟨g, ⟨hg, hin⟩, fun g' hg' => inside_unique h hf hg'.1 hg hg'.2 hin⟩
  · have h' : ∀ f ∈ findings', NonEmpty f := fun f hf => h f (hperm.mem_iff.mp hf)
    have hspans := spans_resolveOverlaps (hperm.map (·.1.sourceSpan))
    refine List.ext_getElem (by simpa using congrArg List.length hspans) fun i hi hi' => ?_
    simp only [List.getElem_map, Prod.mk.injEq]
    simp only [List.length_map] at hi hi'
    have hspan : (resolveOverlaps findings')[i].1.sourceSpan
        = (resolveOverlaps findings)[i].1.sourceSpan := by
      have := congrArg (·[i]?) hspans
      simpa [hi, hi'] using this
    -- the same findings lie inside both spans
    obtain ⟨hmax, f, hf, hin, hact, _⟩ := action_resolveOverlaps h (List.getElem_mem hi')
    obtain ⟨hmax', f', hf', hin', hact', _⟩ := action_resolveOverlaps h' (List.getElem_mem hi)
    have hle := hmax f' (hperm.mem_iff.mp hf') (by unfold Inside at *; rwa [hspan] at hin')
    have hle' := hmax' f (hperm.mem_iff.mpr hf) (by unfold Inside at *; rwa [← hspan] at hin)
    rw [hact'] at hle
    rw [hact] at hle'
    exact ⟨hspan, Action.precedence_inj (Nat.le_antisymm hle hle')⟩

/-- A chain of three spans, and one that touches it. -/
def demoFindings : List (Finding × Action) :=
  [(⟨.phone, .phone, .contextual, ⟨9, 12⟩⟩, .allow), (⟨.email, .email, .high, ⟨0, 4⟩⟩, .mask),
    (⟨.jwt, .jwt, .high, ⟨3, 6⟩⟩, .block), (⟨.customTerm, .customTerm, .high, ⟨5, 9⟩⟩, .tokenize)]

theorem resolveOverlaps_merges_demo :
    (resolveOverlaps demoFindings).Pairwise (fun a b => a.1.sourceSpan.stop ≤ b.1.sourceSpan.start) :=
  (@resolveOverlaps_merges demoFindings (by unfold NonEmpty; decide)).1

example : (resolveOverlaps demoFindings).map (fun g => (g.1.sourceSpan, g.2))
    = [(⟨0, 9⟩, .block), (⟨9, 12⟩, .allow)] := by decide

end AgentVeil
