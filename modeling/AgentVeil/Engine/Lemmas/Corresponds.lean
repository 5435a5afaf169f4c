import AgentVeil.Engine.Lemmas.Protect
import AgentVeil.Ledger.Lemmas.Rename
import AgentVeil.Payload.Lemmas.Rewritten

/-!
# Two requests with other protected values

Two texts correspond when they differ in protected values only. They are rewritten to the same text,
as the ledger gives the same token for values that correspond.
-/

namespace AgentVeil

open Rust
open Rust.Value (mapStrings)
open TokenLedger (Renamed)

namespace PrivacyEngine

/-! ## Texts that correspond -/

/-- The pieces of a text outside the findings that are not allowed. The findings come from the last to
the first, and the text ends at `stop`. -/
def outside (s : Str) : Nat → List (Finding × Action) → List (Option Str)
  | stop, [] => [get? s ⟨0, stop⟩]
  | stop, f :: fs =>
      if f.2 = .allow then outside s stop fs
      else get? s ⟨f.1.sourceSpan.stop, stop⟩ :: outside s f.1.sourceSpan.start fs

/-- The class of a finding and the action on it. -/
def shape (f : Finding × Action) : DataClass × Action := (f.1.dataClass, f.2)

/-- The resolved findings of two texts have the same classes and actions, the texts are the same
outside those that are not allowed, and the texts to be tokenized correspond by `φ`. -/
structure Corresponds (φ : DataClass → Str → Str) (s : Str) (fs : List (Finding × Action)) (s' : Str)
    (fs' : List (Finding × Action)) : Prop where
  shape : fs'.map shape = fs.map shape
  outside : outside s' (len s') fs'.reverse = outside s (len s) fs.reverse
  values : fs'.reverse.flatMap (requested s')
    = (fs.reverse.flatMap (requested s)).map fun asked => (asked.1, φ asked.1 asked.2)

variable {R : Type} [RandomSource R] {u : Unicode} {policy : ValidatedPolicy} {scope : SessionScope}
  {now : Nat} {φ : DataClass → Str → Str}

/-- A text with nothing to be tokenized corresponds to itself. -/
theorem Corresponds.refl {s : Str} {fs : List (Finding × Action)} (h : ∀ f ∈ fs, f.2 ≠ .tokenize) :
    Corresponds φ s fs s fs where
  shape := rfl
  outside := rfl
  values := by
    have hnone : fs.reverse.flatMap (requested s) = [] := by
      refine List.flatMap_eq_nil_iff.mpr fun f hf => ?_
      rw [requested, if_neg (h f (List.mem_reverse.mp hf))]
    rw [hnone, List.map_nil]

/-! ## One finding -/

/-- The text that replaces a finding, with the ledger before and after. -/
inductive Word (policy : ValidatedPolicy) (scope : SessionScope) (nowMs : Nat) (c : DataClass)
    (value : Str) : Action → Str → TokenLedger R → TokenLedger R → Prop where
  | mask {l} : Word policy scope nowMs c value .mask (mask c) l l
  | token {l l' issued} (issue : l.issueTracked scope c value nowMs (ttlSeconds policy c)
        = (.ok issued, l')) :
      Word policy scope nowMs c value .tokenize issued.token l l'

/-- Findings of the same class and action are replaced by the same text. -/
theorem Word.eq (hφ : ∀ c, Function.Injective (φ c)) {c : DataClass} {v v' w w' : Str} {a : Action}
    {l l' l₁ l₁' : TokenLedger R} (hl : Renamed φ scope now l l')
    (h : Word policy scope now c v a w l l₁) (h' : Word policy scope now c v' a w' l' l₁')
    (hv : a = .tokenize → v' = φ c v) : w' = w ∧ Renamed φ scope now l₁ l₁' := by
  cases h with
  | mask =>
      cases h' with
      | mask => exact ⟨rfl, hl⟩
  | token issue =>
      cases h' with
      | token issue' =>
          rw [hv rfl] at issue'
          obtain ⟨rfl, hl₁⟩ := hl.issue hφ issue issue'
          exact ⟨rfl, hl₁⟩

theorem replacement_word {f : Finding} {a : Action} (ha : a ≠ .allow) {value w : Str}
    {st st₁ : Rewriting R} (h : replacement policy scope now f a value st = (.ok w, st₁)) :
    Word policy scope now f.dataClass value a w st.ledger st₁.ledger := by
  cases a with
  | allow => exact absurd rfl ha
  | block => cases h
  | mask =>
      cases h
      exact .mask
  | tokenize =>
      unfold replacement at h
      simp only at h
      split at h
      · cases h
      · rename_i issued ledger hissue
        cases h
        exact .token hissue

theorem rewriteFinding_word {f : Finding × Action} (ha : f.2 ≠ .allow) {p text q tail out : Str}
    (span : f.1.sourceSpan = ⟨len p, len p + len text⟩) {st st₁ : Rewriting R}
    (h : rewriteFinding policy scope now (p ++ text ++ q) f (p ++ text ++ tail) st = (.ok out, st₁)) :
    ∃ w, out = p ++ (w ++ tail) ∧
      Word policy scope now f.1.dataClass text f.2 w st.ledger st₁.ledger := by
  have hget : get? (p ++ text ++ q) f.1.sourceSpan = some text :=
    get?_eq_some_iff.mpr ⟨p, q, rfl, by rw [span], by rw [span]⟩
  unfold rewriteFinding at h
  rw [if_neg ha] at h
  split at h
  · cases h
  · simp only [hget] at h
    split at h
    · cases h
    · rename_i w st₂ hword
      obtain ⟨hout, rfl⟩ := Prod.mk.inj h
      rw [replaceRange?_append (by rw [span]) (by rw [span])] at hout
      exact ⟨w, by simpa [orPanic] using (Except.ok.inj hout).symm, replacement_word ha hword⟩

/-! ## One text -/

omit [RandomSource R] in
/-- The text that is asked a token for, if the finding asks for one. -/
theorem requested_append {f : Finding × Action} {p text q : Str}
    (span : f.1.sourceSpan = ⟨len p, len p + len text⟩) : requested (p ++ text ++ q) f
      = if f.2 = .tokenize then [(f.1.dataClass, text)] else [] := by
  have hget : get? (p ++ text ++ q) f.1.sourceSpan = some text :=
    get?_eq_some_iff.mpr ⟨p, q, rfl, by rw [span], by rw [span]⟩
  simp only [requested, hget, Option.toList_some, List.map_cons, List.map_nil]

omit [RandomSource R] in
/-- What the findings `fs` ask for after the first one. -/
theorem values_cons {f f' : Finding × Action} {fs fs' : List (Finding × Action)} {s s' : Str}
    (h : (f' :: fs').flatMap (requested s')
      = ((f :: fs).flatMap (requested s)).map fun asked => (asked.1, φ asked.1 asked.2))
    (hlen : (requested s' f').length = (requested s f).length) :
    requested s' f' = (requested s f).map (fun asked => (asked.1, φ asked.1 asked.2)) ∧
      fs'.flatMap (requested s')
        = (fs.flatMap (requested s)).map fun asked => (asked.1, φ asked.1 asked.2) := by
  rw [List.flatMap_cons, List.flatMap_cons, List.map_append] at h
  exact List.append_inj h (by rw [List.length_map, hlen])

/-- The rewrites of two texts that correspond, from the last finding to the first. The findings lie in
the parts `p` and `p'` of the texts, which are not rewritten yet. -/
theorem rewriteFindings_corresponds (hφ : ∀ c, Function.Injective (φ c))
    {fs fs' : List (Finding × Action)} {p q p' q' tail w w' : Str} {st st' st₁ st₁' : Rewriting R}
    (hshape : fs'.map shape = fs.map shape)
    (houtside : outside (p' ++ q') (len p') fs' = outside (p ++ q) (len p) fs)
    (hvalues : fs'.flatMap (requested (p' ++ q'))
      = (fs.flatMap (requested (p ++ q))).map fun asked => (asked.1, φ asked.1 asked.2))
    (ordered : fs.Pairwise fun a b => b.1.sourceSpan.stop ≤ a.1.sourceSpan.start)
    (ordered' : fs'.Pairwise fun a b => b.1.sourceSpan.stop ≤ a.1.sourceSpan.start)
    (ranges : ∀ f ∈ fs, SourceRange (p ++ q) f.1.sourceSpan ∧ f.1.sourceSpan.stop ≤ len p)
    (ranges' : ∀ f ∈ fs', SourceRange (p' ++ q') f.1.sourceSpan ∧ f.1.sourceSpan.stop ≤ len p')
    (hl : Renamed φ scope now st.ledger st'.ledger)
    (h : rewriteFindings policy scope now (p ++ q) fs (p ++ tail) st = (.ok w, st₁))
    (h' : rewriteFindings policy scope now (p' ++ q') fs' (p' ++ tail) st' = (.ok w', st₁')) :
    w' = w ∧ Renamed φ scope now st₁.ledger st₁'.ledger := by
  induction fs generalizing fs' p q p' q' tail st st' with
  | nil =>
      obtain rfl := List.map_eq_nil_iff.mp hshape
      have hp : p' = p := by
        simp only [outside, List.cons.injEq, and_true] at houtside
        have hget : ∀ a b : Str, get? (a ++ b) ⟨0, len a⟩ = some a := fun a b =>
          get?_eq_some_iff.mpr ⟨[], b, by simp, rfl, by simp⟩
        rw [hget, hget] at houtside
        exact Option.some.inj houtside
      cases h
      cases h'
      exact ⟨by rw [hp], hl⟩
  | cons f fs ih =>
      cases fs' with
      | nil => cases hshape
      | cons f' fs' =>
          obtain ⟨hhead, hshape⟩ := List.cons.inj hshape
          obtain ⟨hclass, haction⟩ := Prod.mk.inj hhead
          obtain ⟨hbefore, ordered⟩ := List.pairwise_cons.mp ordered
          obtain ⟨hbefore', ordered'⟩ := List.pairwise_cons.mp ordered'
          obtain ⟨⟨hr, hstop⟩, ranges⟩ := List.forall_mem_cons.mp ranges
          obtain ⟨⟨hr', hstop'⟩, ranges'⟩ := List.forall_mem_cons.mp ranges'
          obtain ⟨p₁, text, gap, rfl, span⟩ := exists_cut hr hstop
          obtain ⟨p₁', text', gap', rfl, span'⟩ := exists_cut hr' hstop'
          have hasked : requested (p₁ ++ text ++ gap ++ q) f
              = if f.2 = .tokenize then [(f.1.dataClass, text)] else [] := by
            rw [List.append_assoc _ gap]
            exact requested_append span
          have hasked' : requested (p₁' ++ text' ++ gap' ++ q') f'
              = if f.2 = .tokenize then [(f.1.dataClass, text')] else [] := by
            rw [List.append_assoc _ gap', requested_append span', haction, hclass]
          obtain ⟨hvalue, hvalues⟩ := values_cons hvalues (by
            rw [hasked, hasked']
            split
            · rfl
            · rfl)
          simp only [rewriteFindings] at h h'
          by_cases ha : f.2 = .allow
          · -- an allowed finding is left in the text
            have ha' : f'.2 = .allow := haction.trans ha
            rw [rewriteFinding, if_pos ha] at h
            rw [rewriteFinding, if_pos ha'] at h'
            rw [outside, outside, if_pos ha, if_pos ha'] at houtside
            exact ih hshape houtside hvalues ordered ordered' ranges ranges' hl h h'
          · have ha' : ¬f'.2 = .allow := fun h => ha (haction.symm.trans h)
            -- the same text follows both findings
            rw [outside, outside, if_neg ha, if_neg ha', span, span'] at houtside
            obtain ⟨hgap, houtside⟩ := List.cons.inj houtside
            have hget : ∀ a b c d : Str,
                get? (a ++ b ++ c ++ d) ⟨len a + len b, len (a ++ b ++ c)⟩ = some c := fun a b c d =>
              get?_eq_some_iff.mpr ⟨a ++ b, d, rfl, by simp, by simp [Nat.add_assoc]⟩
            rw [hget, hget] at hgap
            obtain rfl := Option.some.inj hgap
            split at h
            · cases h
            · rename_i out st₂ hstep
              split at h'
              · cases h'
              · rename_i out' st₂' hstep'
                rw [List.append_assoc _ gap' q, List.append_assoc _ gap' tail] at hstep
                rw [List.append_assoc _ gap' q', List.append_assoc _ gap' tail] at hstep'
                obtain ⟨word, rfl, hword⟩ := rewriteFinding_word ha span hstep
                obtain ⟨word', rfl, hword'⟩ := rewriteFinding_word ha' span' hstep'
                rw [hclass, haction] at hword'
                obtain ⟨rfl, hl⟩ := hword.eq hφ hl hword' fun htok => by
                  rw [hasked, hasked', if_pos htok, if_pos htok] at hvalue
                  simpa using hvalue
                have hassoc : ∀ a b c d : Str, a ++ b ++ c ++ d = a ++ (b ++ (c ++ d)) := by simp
                rw [hassoc] at houtside hvalues h ranges
                rw [hassoc] at houtside hvalues h' ranges'
                refine ih hshape houtside hvalues ordered ordered' ?_ ?_ hl h h'
                · intro g hg
                  have := hbefore g hg
                  rw [span] at this
                  exact ⟨(ranges g hg).1, this⟩
                · intro g hg
                  have := hbefore' g hg
                  rw [span'] at this
                  exact ⟨(ranges' g hg).1, this⟩

/-! ## One target -/

variable {request request' : ValidatedRequest} {ledger : TokenLedger R}

/-- A target is rewritten to the text that its findings give. The tree changes at its path only. -/
theorem rewritePlan_ok {target : TextTarget × Nat} {plan : TargetPlan}
    (hplan : Planned u policy request ledger scope now target plan)
    (htarget : request.targets[target.2]? = some target.1) (hc : request.value.Canonical)
    {g : Path → Str → Str} {st st₁ : Rewriting R} {r : Unit}
    (hreq : st.request = { request with value := mapStrings g request.value })
    (hg : target.1.literal = none → ∀ s, g target.1.path s = s)
    (h : rewritePlan policy scope now plan st = (.ok r, st₁)) :
    ∃ w st₂ g', rewriteFindings policy scope now plan.original plan.findings.reverse plan.original st
        = (.ok w, st₂) ∧ st₁.ledger = st₂.ledger ∧
      st₁.request = { request with value := mapStrings g' request.value } ∧
      (target.1.literal = none → g' target.1.path plan.original = w) ∧
      ∀ q, (target.1.literal = none → target.1.path ≠ q) → g' q = g q := by
  obtain ⟨found, _, hres⟩ := hplan.resolves
  have hkept : Outcome _ _ (rewriteFindings policy scope now (plan.original ++ [])
      plan.findings.reverse (plan.original ++ []) st) :=
    outcome_rewriteFindings hres.ordered (fun f hf => ⟨by simpa using hres.ranges f hf,
      le_len_of_isCharBoundary (hres.ranges f hf).stop⟩) st
  unfold rewritePlan at h
  rw [sortBy_startGe hres.ordered hres.ranges] at h
  simp only [List.append_nil] at hkept
  generalize rewriteFindings policy scope now plan.original plan.findings.reverse plan.original st
    = result at h hkept
  obtain ⟨e | w, st₂⟩ := result
  · cases h
  obtain ⟨_, _, _, _, hsame, _⟩ := hkept
  rw [hreq] at hsame
  simp only at h
  by_cases heq : w = plan.original
  · rw [if_pos heq] at h
    obtain ⟨_, rfl⟩ := Prod.mk.inj h
    exact ⟨w, st₂, g, rfl, rfl, hsame, fun hl => by rw [heq, hg hl], fun _ _ => rfl⟩
  · rw [if_neg heq, hsame, hplan.index] at h
    split at h
    · cases h
    · rename_i request₁ hreplace
      obtain ⟨_, rfl⟩ := Prod.mk.inj h
      obtain ⟨t, ht, hl, rfl⟩ := replaceText_ok (by exact hc.mapStrings) hreplace
      simp only [htarget, Option.some.injEq] at ht
      subst ht
      refine ⟨w, st₂, fun q s => if q = target.1.path then w else g q s, rfl, rfl, ?_,
        fun _ => if_pos rfl, fun q hq => ?_⟩
      · simp only [Value.mapStrings_mapStrings]
      · funext s
        exact if_neg fun he => hq hl he.symm

omit [RandomSource R] in
/-- The findings of a plan in the order of their rewrites. -/
theorem Planned.reversed {target : TextTarget × Nat} {plan : TargetPlan}
    (h : Planned u policy request ledger scope now target plan) :
    plan.findings.reverse.Pairwise (fun a b => b.1.sourceSpan.stop ≤ a.1.sourceSpan.start) ∧
      ∀ f ∈ plan.findings.reverse, SourceRange (plan.original ++ []) f.1.sourceSpan ∧
        f.1.sourceSpan.stop ≤ len plan.original := by
  obtain ⟨found, _, hres⟩ := h.resolves
  refine ⟨List.pairwise_reverse.mpr hres.ordered, fun f hf => ?_⟩
  have hr := hres.ranges f (List.mem_reverse.mp hf)
  exact ⟨by simpa using hr, le_len_of_isCharBoundary hr.stop⟩

/-! ## All targets -/

/-- The plans of the same target in two requests correspond. -/
abbrev PlansCorrespond (φ : DataClass → Str → Str) (plan plan' : TargetPlan) : Prop :=
  Corresponds φ plan.original plan.findings plan'.original plan'.findings

theorem applyRewrites_corresponds (hφ : ∀ c, Function.Injective (φ c))
    {ts : List (TextTarget × Nat)} {plans plans' : List TargetPlan}
    (hplans : List.Forall₂ (Planned u policy request ledger scope now) ts plans)
    (hplans' : List.Forall₂ (Planned u policy request' ledger scope now) ts plans')
    (hcorr : List.Forall₂ (PlansCorrespond φ) plans plans')
    (htargets : ∀ t ∈ ts, request.targets[t.2]? = some t.1)
    (htargets' : request'.targets = request.targets)
    (hnodup : ((ts.filter (·.1.literal.isNone)).map (·.1.path)).Nodup)
    (hc : request.value.Canonical) (hc' : request'.value.Canonical) {g g' : Path → Str → Str}
    {st st' st₁ st₁' : Rewriting R} {us us' : List Unit}
    (hreq : st.request = { request with value := mapStrings g request.value })
    (hreq' : st'.request = { request' with value := mapStrings g' request'.value })
    (hg : ∀ t ∈ ts, t.1.literal = none → ∀ s, g t.1.path s = s ∧ g' t.1.path s = s)
    (hl : Renamed φ scope now st.ledger st'.ledger)
    (h : applyRewrites policy scope now plans st = (.ok us, st₁))
    (h' : applyRewrites policy scope now plans' st' = (.ok us', st₁')) :
    ∃ k k', st₁.request = { request with value := mapStrings k request.value } ∧
      st₁'.request = { request' with value := mapStrings k' request'.value } ∧
      ((∀ q, (∀ t ∈ ts, t.1.literal = none → t.1.path ≠ q) → k q = g q ∧ k' q = g' q) ∧
        Renamed φ scope now st₁.ledger st₁'.ledger) ∧
      ∀ t ∈ ts, t.1.literal = none → ∀ s s', request.text t.1 = .ok s → request'.text t.1 = .ok s' →
        k' t.1.path s' = k t.1.path s := by
  induction hplans generalizing plans' g g' st st' us us' with
  | nil =>
      cases hplans' with
      | nil =>
          cases h
          cases h'
          exact ⟨g, g', hreq, hreq', ⟨fun _ _ => ⟨rfl, rfl⟩, hl⟩, by simp⟩
  | @cons t plan ts plans hplan _ ih =>
      cases hplans' with
      | @cons _ plan' _ plans' hplan' hplans' =>
          obtain ⟨hhead, hcorr⟩ := List.forall₂_cons.mp hcorr
          obtain ⟨ht, htargets⟩ := List.forall_mem_cons.mp htargets
          obtain ⟨hgt, hg⟩ := List.forall_mem_cons.mp hg
          unfold applyRewrites loop at h h'
          split at h
          · cases h
          rename_i st₂ hstep
          split at h'
          · cases h'
          rename_i st₂' hstep'
          split at h
          · cases h
          rename_i st₃ hrest
          split at h'
          · cases h'
          rename_i st₃' hrest'
          obtain ⟨_, rfl⟩ := Prod.mk.inj h
          obtain ⟨_, rfl⟩ := Prod.mk.inj h'
          obtain ⟨w, st₄, k₁, hw, hledger, hreq₁, hk₁, hframe₁⟩ :=
            rewritePlan_ok hplan ht hc hreq (fun hl s => (hgt hl s).1) hstep
          obtain ⟨w', st₄', k₁', hw', hledger', hreq₁', hk₁', hframe₁'⟩ :=
            rewritePlan_ok hplan' (htargets' ▸ ht) hc' hreq' (fun hl s => (hgt hl s).2) hstep'
          -- both texts are rewritten to the same text
          obtain ⟨hord, hran⟩ := hplan.reversed
          obtain ⟨hord', hran'⟩ := hplan'.reversed
          rw [← List.append_nil plan.original] at hw
          rw [← List.append_nil plan'.original] at hw'
          obtain ⟨rfl, hl₁⟩ := rewriteFindings_corresponds hφ
            (by rw [List.map_reverse, List.map_reverse, hhead.shape])
            (by simpa using hhead.outside) (by simpa using hhead.values) hord hord' hran hran' hl
            hw hw'
          have hdisj : t.1.literal = none → ∀ t' ∈ ts, t'.1.literal = none → t.1.path ≠ t'.1.path := by
            intro hl t' ht' hl' he
            rw [List.filter_cons_of_pos (by simp [hl]), List.map_cons, List.nodup_cons] at hnodup
            exact hnodup.1 (he ▸ List.mem_map_of_mem
              (List.mem_filter.mpr ⟨ht', by simp [hl']⟩))
          have hnodup' : ((ts.filter (·.1.literal.isNone)).map (·.1.path)).Nodup :=
            hnodup.sublist (((List.sublist_cons_self t ts).filter _).map _)
          obtain ⟨k, k', hk, hk', ⟨hframe, hlast⟩, hall⟩ := ih hplans' hcorr htargets hnodup' hreq₁ hreq₁'
            (fun t' ht' hl' s => by
              rw [hframe₁ _ fun hl => hdisj hl t' ht' hl', hframe₁' _ fun hl => hdisj hl t' ht' hl']
              exact hg t' ht' hl' s)
            (by rw [hledger, hledger']; exact hl₁) hrest hrest'
          refine ⟨k, k', hk, hk', ⟨fun q hq => ?_, hlast⟩,
            List.forall_mem_cons.mpr ⟨fun hl s s' hs hs' => ?_, hall⟩⟩
          · obtain ⟨hqt, hq⟩ := List.forall_mem_cons.mp hq
            rw [(hframe q hq).1, (hframe q hq).2, hframe₁ q hqt, hframe₁' q hqt]
            exact ⟨rfl, rfl⟩
          · obtain ⟨hkt, hkt'⟩ := hframe t.1.path fun t' ht' hl' he => hdisj hl t' ht' hl' he.symm
            obtain rfl := Except.ok.inj (hplan.text.symm.trans hs)
            obtain rfl := Except.ok.inj (hplan'.text.symm.trans hs')
            rw [hkt, hkt', hk₁ hl, hk₁' hl]

end PrivacyEngine

end AgentVeil
