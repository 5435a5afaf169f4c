import AgentVeil.Engine.Lemmas.Corresponds
import AgentVeil.Engine.Theorems

/-!
# Forwarded bodies do not depend on protected values
-/

namespace AgentVeil

open Rust
open Rust.Value (mapStrings)
open TokenLedger (Renamed renamed_self purgeExpired_idem)

namespace PrivacyEngine

variable {R : Type} {u : Unicode} {serde : SerdeJson} {engine : PrivacyEngine R}
  {body body' : List UInt8} {scope : SessionScope} {now : Nat} {φ : DataClass → Str → Str}
  {request request' : ValidatedRequest} {ledger : TokenLedger R}

/-! ## The plans -/

theorem planFinding_purgeExpired (policy : ValidatedPolicy) (mode : RewriteMode) (text : Str)
    (f : Finding) (l : TokenLedger R) :
    (planFinding policy scope now mode text f l).2.purgeExpired now = l.purgeExpired now := by
  unfold planFinding
  dsimp only
  split
  · split
    · rfl
    · exact purgeExpired_idem l now
  · rfl

/-- Planning purges expired entries at most. -/
theorem plan_purgeExpired {plans : List TargetPlan}
    (h : engine.plan u request scope now = (.ok plans, ledger)) :
    ledger.purgeExpired now = engine.ledger.purgeExpired now := by
  have htarget : ∀ target (l : TokenLedger R),
      l.purgeExpired now = engine.ledger.purgeExpired now →
      (planTarget u engine.policy request scope now target l).2.purgeExpired now
        = engine.ledger.purgeExpired now := by
    intro target l hl
    unfold planTarget
    split
    · exact hl
    · split
      · exact hl
      · rename_i text _ _ found _
        have hloop := loop_invariant (l := found)
          (f := planFinding engine.policy scope now target.1.mode text)
          (fun f l hl => (planFinding_purgeExpired _ _ _ f l).trans hl) hl
        split
        · rename_i hfound
          rwa [hfound] at hloop
        · rename_i hfound
          rwa [hfound] at hloop
  have hplan := loop_invariant (l := request.targets.zipIdx) htarget
    (rfl : engine.ledger.purgeExpired now = _)
  rwa [show loop _ _ _ = _ from h] at hplan

/-- A target that is not rewritten and has the same text in both requests. -/
theorem plansCorrespond_of_text {target : TextTarget × Nat} {plan plan' : TargetPlan}
    {policy : ValidatedPolicy}
    (hplan : Planned u policy request ledger scope now target plan)
    (hplan' : Planned u policy request' ledger scope now target plan')
    (hmode : target.1.mode = .blockOnly) (htext : plan'.original = plan.original) :
    PlansCorrespond φ plan plan' := by
  obtain ⟨found, hs, hf⟩ := hplan.findings
  obtain ⟨found', hs', hf'⟩ := hplan'.findings
  rw [htext] at hs' hf'
  obtain rfl := Except.ok.inj (hs.symm.trans hs')
  rw [PlansCorrespond, htext, hf'.trans hf.symm]
  refine .refl fun f hmem => ?_
  rcases hplan.blockOnly hmode f hmem with h | h
  · rw [h]; exact nofun
  · rw [h]; exact nofun

/-! ## Two calls -/

/-- The trees of two requests agree except in strings that may be rewritten; there the texts differ in
protected values only, which correspond by `φ`. -/
structure DiffersInProtected (u : Unicode) (engine : PrivacyEngine R) (scope : SessionScope)
    (nowMs : Nat) (φ : DataClass → Str → Str) (f : Path → Str → Str) (v v' : Value) : Prop where
  value : v' = mapStrings f v
  kept : ∀ q s, (q, s) ∈ v.leaves → ¬RewriteLeaf v q → f q s = s
  texts : ∀ q s, (q, s) ∈ v.leaves → RewriteLeaf v q → ∀ found found',
    engine.scanner.scan u s = .ok found → engine.scanner.scan u (f q s) = .ok found' →
    Corresponds φ s
      (resolveOverlaps (actions engine.policy engine.ledger scope nowMs .rewrite s found)) (f q s)
      (resolveOverlaps (actions engine.policy engine.ledger scope nowMs .rewrite (f q s) found'))

/-- The plans of two such requests correspond. -/
theorem plansCorrespond {f : Path → Str → Str} (htracks : request.Tracks)
    (hdiff : DiffersInProtected u engine scope now φ f request.value request'.value)
    {target : TextTarget × Nat} (ht : target.1 ∈ request.targets) {plan plan' : TargetPlan}
    (hplan : Planned u engine.policy request engine.ledger scope now target plan)
    (hplan' : Planned u engine.policy request' engine.ledger scope now target plan') :
    PlansCorrespond φ plan plan' := by
  cases hl : target.1.literal with
  | some k =>
      have htext := hplan.text
      have htext' := hplan'.text
      rw [ValidatedRequest.text, hl] at htext htext'
      have hmode := htracks.literal_mode target.1 ht (by rw [hl]; rfl)
      exact plansCorrespond_of_text hplan hplan' hmode
        ((Except.ok.inj htext').symm.trans (Except.ok.inj htext))
  | none =>
      have hleaf : target.1 ∈ request.leafTargets := List.mem_filter.mpr ⟨ht, by simp [hl]⟩
      obtain ⟨s, hmem, htext⟩ := htracks.text_leaf hleaf
      have htext' : request'.text target.1 = .ok (f target.1.path s) := by
        have hget : request'.value.get? target.1.path = some (.string (f target.1.path s)) := by
          rw [hdiff.value, Value.get?_mapStrings, htracks.canonical.mem_leaves.mp hmem, Option.map_some]
          simp only [mapStrings, List.append_nil]
        rw [ValidatedRequest.text, hl]
        simp only [locate, hget, okOr, ok_bind, Value.asStr]
      obtain rfl := Except.ok.inj (hplan.text.symm.trans htext)
      have horiginal := Except.ok.inj (hplan'.text.symm.trans htext')
      cases hmode : target.1.mode with
      | blockOnly =>
          have hn : ¬RewriteLeaf request.value target.1.path := fun hr => by
            rw [(htracks.mode _ hleaf).mpr hr] at hmode
            cases hmode
          exact plansCorrespond_of_text hplan hplan' hmode
            (horiginal.trans (hdiff.kept _ _ hmem hn))
      | rewrite =>
          obtain ⟨found, hs, hf⟩ := hplan.findings
          obtain ⟨found', hs', hf'⟩ := hplan'.findings
          rw [hmode] at hf hf'
          rw [horiginal] at hs' hf'
          rw [PlansCorrespond, hf, horiginal, hf']
          exact hdiff.texts _ _ hmem ((htracks.mode _ hleaf).mp hmode) found found' hs hs'

theorem forall₂_plansCorrespond {f : Path → Str → Str} (htracks : request.Tracks)
    (hdiff : DiffersInProtected u engine scope now φ f request.value request'.value)
    {ts : List (TextTarget × Nat)} (hmem : ∀ t ∈ ts, t.1 ∈ request.targets)
    {plans plans' : List TargetPlan}
    (hplans : List.Forall₂ (Planned u engine.policy request engine.ledger scope now) ts plans)
    (hplans' : List.Forall₂ (Planned u engine.policy request' engine.ledger scope now) ts plans') :
    List.Forall₂ (PlansCorrespond φ) plans plans' := by
  induction hplans generalizing plans' with
  | nil =>
      cases hplans' with
      | nil => exact .nil
  | cons hplan _ ih =>
      cases hplans' with
      | cons hplan' hrest' =>
          obtain ⟨ht, hmem⟩ := List.forall_mem_cons.mp hmem
          exact .cons (plansCorrespond htracks hdiff ht hplan hplan') (ih hmem hrest')

variable [RandomSource R]

/-- The parts of a call that forwards. -/
theorem protect_forwarded {r : ForwardRequest}
    (h : (protect u serde engine body scope now).1 = .ok (.forward r)) :
    ∃ request plans ledger us st, Judged u serde engine body scope now request plans ledger ∧
      applyRewrites engine.policy scope now plans ⟨request, ledger, []⟩ = (.ok us, st) ∧
      serde.toVec st.request.value = some r.body := by
  unfold protect at h
  split at h
  · cases h
  rename_i hsize
  split at h
  · cases h
  rename_i request hparse
  have hplans := outcome_plan u engine request scope now
  generalize hplan : engine.plan u request scope now = result at h hplans
  obtain ⟨e | plans, ledger⟩ := result
  · cases h
  simp only at h
  split at h
  · cases h
  unfold forward at h
  generalize happly : applyRewrites engine.policy scope now plans ⟨request, ledger, []⟩ = result at h
  obtain ⟨e | us, st⟩ := result
  · cases e with
    | _ => cases h
  simp only at h
  split at h
  · cases h
  · rename_i output hser
    cases h
    exact ⟨request, plans, ledger, us, st,
      ⟨Nat.le_of_not_lt hsize, hparse, hplan, hplans.1, hplans.2⟩, happly, okOr_ok_iff.mp hser⟩

/-- Two calls from one state, on requests that differ in protected values only, forward the same bytes:
the values correspond by a map that is injective on each class and keeps the values which the session
has unexpired in the ledger. -/
theorem protect_forward_eq {f : Path → Str → Str} {r r' : ForwardRequest}
    (hparse : ValidatedRequest.parse serde body = .ok request)
    (hparse' : ValidatedRequest.parse serde body' = .ok request')
    (hdiff : DiffersInProtected u engine scope now φ f request.value request'.value)
    (hφ : ∀ c, Function.Injective (φ c))
    (hlive : ∀ t e, engine.ledger.entries.get t = some e → e.scope = scope → now < e.expiresAtMs →
      φ e.dataClass e.value = e.value)
    (h : (protect u serde engine body scope now).1 = .ok (.forward r))
    (h' : (protect u serde engine body' scope now).1 = .ok (.forward r')) : r'.body = r.body := by
  obtain ⟨htracks, _⟩ := parse_tracks hparse
  obtain ⟨htracks', _⟩ := parse_tracks hparse'
  -- both requests have the same targets
  have htargets : request'.targets = request.targets := by
    simp only [ValidatedRequest.parse, bind_ok_iff, okOr_ok_iff] at hparse hparse'
    obtain ⟨v, _, hv⟩ := hparse
    obtain ⟨v', _, hv'⟩ := hparse'
    obtain rfl := ofValue_value hv
    obtain rfl := ofValue_value hv'
    rw [hdiff.value, ofValue_rewritten hv hdiff.kept] at hv'
    exact (congrArg ValidatedRequest.targets (Except.ok.inj hv')).symm
  obtain ⟨_, plans, ledger, us, st, judged, happly, hbody⟩ := protect_forwarded h
  obtain ⟨_, plans', ledger', us', st', judged', happly', hbody'⟩ := protect_forwarded h'
  obtain rfl := Except.ok.inj (hparse.symm.trans judged.parsed)
  obtain rfl := Except.ok.inj (hparse'.symm.trans judged'.parsed)
  have hplanned' := judged'.planned
  rw [htargets] at hplanned'
  have hcorr : List.Forall₂ (PlansCorrespond φ) plans plans' :=
    forall₂_plansCorrespond htracks hdiff (fun t ht => List.fst_mem_of_mem_zipIdx ht) judged.planned
      hplanned'
  have hl : Renamed φ scope now ledger ledger' := by
    have hself : Renamed φ scope now engine.ledger engine.ledger := renamed_self hlive
    rw [Renamed, plan_purgeExpired judged.plan, plan_purgeExpired judged'.plan]
    exact hself
  have hstart : ∀ request : ValidatedRequest,
      request = { request with value := mapStrings (fun _ s => s) request.value } := fun request => by
    rw [Value.mapStrings_self]
  obtain ⟨k, k', hk, hk', _, hsame⟩ := applyRewrites_corresponds hφ judged.planned hplanned' hcorr
    (fun t ht => List.mk_mem_zipIdx_iff_getElem?.mp ht) htargets
    (by rw [leafPaths_zipIdx]; exact htracks.paths.nodup_iff.mpr htracks.canonical.nodup_leaves)
    htracks.canonical htracks'.canonical (hstart request) (hstart request')
    (fun _ _ _ _ => ⟨rfl, rfl⟩) hl happly happly'
  -- every string of the two trees is the same
  have hvalue : st'.request.value = st.request.value := by
    rw [hk, hk', hdiff.value, Value.mapStrings_mapStrings]
    refine Value.mapStrings_congr _ fun q hq => ?_
    obtain ⟨t, ht, hpath⟩ := List.mem_map.mp (htracks.paths.mem_iff.mpr
      (List.mem_map.mpr ⟨q, hq, rfl⟩))
    obtain ⟨htmem, hl⟩ := List.mem_filter.mp ht
    have hl : t.literal = none := by simpa using hl
    obtain ⟨i, hi⟩ := List.mem_iff_getElem?.mp htmem
    have hget := htracks.canonical.mem_leaves.mp hq
    have hget' : request'.value.get? q.1 = some (.string (f q.1 q.2)) := by
      rw [hdiff.value, Value.get?_mapStrings, hget, Option.map_some]
      simp only [mapStrings, List.append_nil]
    have htext : request.text t = .ok q.2 := by
      rw [ValidatedRequest.text, hl]
      simp only [locate, hpath, hget, okOr, ok_bind, Value.asStr]
    have htext' : request'.text t = .ok (f q.1 q.2) := by
      rw [ValidatedRequest.text, hl]
      simp only [locate, hpath, hget', okOr, ok_bind, Value.asStr]
    have := hsame (t, i) (List.mk_mem_zipIdx_iff_getElem?.mpr hi) hl q.2 (f q.1 q.2) htext htext'
    rwa [hpath] at this
  rw [hvalue, hbody] at hbody'
  exact (Option.some.inj hbody').symm

/-! ## A demonstration -/

/-- Two requests and what both are forwarded as. -/
def pairSerde : SerdeJson :=
  .ofTable [(demoBody "a@b.co".toList, demoValue "a@b.co".toList),
    (demoBody "c@dd.eu".toList, demoValue "c@dd.eu".toList),
    (demoBody demoToken, demoValue demoToken)] (by decide)

/-- The other address in place of the first one. -/
def otherInput (q : Path) (s : Str) : Str := if q = [key "input"] then "c@dd.eu".toList else s

/-- The two addresses are exchanged. -/
def exchanged (_ : DataClass) : Str → Str := Equiv.swap "a@b.co".toList "c@dd.eu".toList

theorem scan_address : demoEngine.scanner.scan Unicode.ascii "a@b.co".toList
      = .ok [⟨.email, .email, .high, ⟨0, 6⟩⟩] ∧
    demoEngine.scanner.scan Unicode.ascii "c@dd.eu".toList
      = .ok [⟨.email, .email, .high, ⟨0, 7⟩⟩] := by
  decide +kernel

theorem demo_differs : DiffersInProtected Unicode.ascii demoEngine demoScope 0 exchanged otherInput
    (demoValue "a@b.co".toList) (demoValue "c@dd.eu".toList) where
  value := by decide
  kept q s _ hn := by
    have hq : q ≠ [key "input"] := by
      rintro rfl
      exact hn .input
    exact if_neg hq
  texts q s hq hr found found' hs hs' := by
    have hleaves : ∀ leaf ∈ (demoValue "a@b.co".toList).leaves,
        leaf = ([key "input"], "a@b.co".toList) ∨ leaf.1 = [key "model"] ∨
          leaf.1 = [key "tool_choice"] := by decide
    have hne : ∀ name ∈ ["model", "tool_choice"],
        key name ≠ key "instructions" ∧ key name ≠ key "input" := by decide
    have hnot : ∀ name ∈ ["model", "tool_choice"],
        ¬RewriteLeaf (demoValue "a@b.co".toList) [key name] := fun name hname => by
      simp [rewriteLeaf_key_iff, hne name hname]
    rcases hleaves (q, s) hq with h | h | h
    · obtain ⟨rfl, rfl⟩ := Prod.mk.inj h
      obtain rfl := Except.ok.inj (hs.symm.trans scan_address.1)
      obtain rfl := Except.ok.inj (hs'.symm.trans scan_address.2)
      exact ⟨by decide +kernel, by decide, by decide⟩
    · obtain rfl : q = [key "model"] := h
      exact absurd hr (hnot _ (by simp))
    · obtain rfl : q = [key "tool_choice"] := h
      exact absurd hr (hnot _ (by simp))

theorem protect_forward_eq_demo : ∃ r r' : ForwardRequest,
    (demoEngine.protect Unicode.ascii pairSerde (demoBody "a@b.co".toList) demoScope 0).1
      = .ok (.forward r) ∧
    (demoEngine.protect Unicode.ascii pairSerde (demoBody "c@dd.eu".toList) demoScope 0).1
      = .ok (.forward r') ∧ r'.body = r.body := by
  have hforward : ∀ s ∈ ["a@b.co".toList, "c@dd.eu".toList],
      (demoEngine.protect Unicode.ascii pairSerde (demoBody s) demoScope 0).1
        = .ok (.forward ⟨demoBody demoToken, .rewritten,
            ⟨9, [⟨.email, .email, .high, .tokenize, .messageText, 1⟩]⟩⟩) := by
    decide +kernel
  have hvalue : ∀ s ∈ ["a@b.co".toList, "c@dd.eu".toList],
      (ValidatedRequest.parse pairSerde (demoBody s)).toOption.map (·.value) = some (demoValue s) := by
    decide
  have hparse : ∀ s ∈ ["a@b.co".toList, "c@dd.eu".toList], ∃ request,
      ValidatedRequest.parse pairSerde (demoBody s) = .ok request ∧ request.value = demoValue s :=
    fun s hs => by
      have := hvalue s hs
      cases h : ValidatedRequest.parse pairSerde (demoBody s) with
      | error e => rw [h] at this; cases this
      | ok request => exact ⟨request, rfl, by rw [h] at this; exact Option.some.inj this⟩
  obtain ⟨request, hrequest, hv⟩ := hparse "a@b.co".toList (by simp)
  obtain ⟨request', hrequest', hv'⟩ := hparse "c@dd.eu".toList (by simp)
  have hr := hforward "a@b.co".toList (by simp)
  have hr' := hforward "c@dd.eu".toList (by simp)
  refine ⟨_, _, hr, hr', protect_forward_eq hrequest hrequest' (hv ▸ hv' ▸ demo_differs)
    (fun _ => (Equiv.swap _ _).injective) (fun t e h => ?_) hr hr'⟩
  rw [demoEngine, demoLedger, HashMap.get_clear] at h
  cases h

end PrivacyEngine

end AgentVeil
