import AgentVeil.Engine.Lemmas.Issues
import AgentVeil.Ledger.Invariants

/-!
# What the issues of a call evict

The entries that a call uses are used later than all others. As long as the ledger can hold the values of
the call, an eviction takes one of the others, and every token of the call stays.
-/

namespace AgentVeil

open Rust

namespace TokenLedger

variable {R : Type} {l l' : TokenLedger R}

/-- A ledger with one entry for each value has no more entries than there are values. -/
theorem size_le_card {ks : Finset (DataClass × Str)}
    (within : ∀ t e, l.entries.get t = some e → (e.dataClass, e.value) ∈ ks)
    (unique : ∀ t t' e e', l.entries.get t = some e → l.entries.get t' = some e' →
      (e.dataClass, e.value) = (e'.dataClass, e'.value) → t = t') : l.entries.size ≤ ks.card := by
  have hget : ∀ x ∈ l.entries.entries, l.entries.get x.1 = some x.2 := fun x hx =>
    HashMap.get_eq_some_iff.mpr hx
  have hnodup : (l.entries.entries.map fun x => (x.2.dataClass, x.2.value)).Nodup := by
    refine List.Nodup.map_on ?_ (List.Nodup.of_map _ l.entries.nodup)
    intro x hx y hy hkey
    have htoken := unique _ _ _ _ (hget x hx) (hget y hy) hkey
    have hentry := (hget x hx).symm.trans ((congrArg l.entries.get htoken).trans (hget y hy))
    exact Prod.ext htoken (Option.some.inj hentry)
  have hsub : (l.entries.entries.map fun x => (x.2.dataClass, x.2.value)).toFinset ⊆ ks := by
    intro k hk
    obtain ⟨x, hx, rfl⟩ := List.mem_map.mp (List.mem_toFinset.mp hk)
    exact within _ _ (hget x hx)
  have hcard := Finset.card_le_card hsub
  rw [List.toFinset_card_of_nodup hnodup, List.length_map] at hcard
  exact hcard

end TokenLedger

namespace PrivacyEngine

variable {R : Type} {policy : ValidatedPolicy} {scope : SessionScope} {now used : Nat}
  {l l' : TokenLedger R} {i : Issue} {done is : List Issue}

/-- The unexpired entries used after a sequence number are those of these issues, one for each value. -/
structure Recent (scope : SessionScope) (nowMs used : Nat) (done : List Issue) (l : TokenLedger R) :
    Prop where
  sequence : used ≤ l.sequence
  unique {t t' e e'} : l.entries.get t = some e → nowMs < e.expiresAtMs → l.entries.get t' = some e' →
    nowMs < e'.expiresAtMs → e.scope = e'.scope → e.dataClass = e'.dataClass → e.value = e'.value → t = t'
  only {t e} : l.entries.get t = some e → nowMs < e.expiresAtMs → used < e.lastUsedSequence →
    e.scope = scope ∧ (e.dataClass, e.value) ∈ done.map Issue.key
  held : ∀ i ∈ done, ∃ e, l.entries.get i.token = some e ∧ nowMs < e.expiresAtMs ∧
    used < e.lastUsedSequence ∧ e.scope = scope ∧ e.dataClass = i.dataClass ∧ e.value = i.value

theorem Recent.start {n : Nat} (inv : l.Invariant n) (live : SameLive now l l') :
    Recent scope now l.sequence [] l' where
  sequence := Nat.le_of_eq live.sequence.symm
  unique he hx he' hx' := inv.unique ((live.entries _ _ hx).mp he) ((live.entries _ _ hx').mp he')
  only he hx hused := absurd (inv.used ((live.entries _ _ hx).mp he)) (Nat.not_le.mpr hused)
  held _ hi := absurd hi List.not_mem_nil

/-- An eviction before the insertion of another value takes none of the entries of the issues. -/
theorem Recent.makeRoom (h : Recent scope now used done l)
    (missing : (l.opened now).findReusable scope i.dataClass i.value now = none)
    (fits : ((i :: done).map Issue.key).toFinset.card ≤ l.maxEntries) {t : Token} {e : Entry}
    (he : (l.opened now).entries.get t = some e) (hused : used < e.lastUsedSequence) :
    (l.opened now).makeRoom.entries.get t = some e := by
  rw [TokenLedger.get_makeRoom, if_neg ?_, he]
  intro hevicted
  unfold TokenLedger.evicted at hevicted
  split at hevicted
  · rename_i hfull
    obtain ⟨e₁, he₁, hleast⟩ := TokenLedger.victim_spec hevicted
    obtain rfl := Option.some.inj (he.symm.trans he₁)
    -- every entry is one of the issues, and none of them has this value
    have hrecent : ∀ t' e', (l.opened now).entries.get t' = some e' →
        e'.scope = scope ∧ (e'.dataClass, e'.value) ∈ (done.map Issue.key).toFinset := by
      intro t' e' he'
      obtain ⟨hl, hx⟩ := TokenLedger.get_opened.mp he'
      obtain ⟨hs, hk⟩ := h.only hl hx (Nat.lt_of_lt_of_le hused (hleast t' e' he'))
      exact ⟨hs, List.mem_toFinset.mpr hk⟩
    have hsize : (l.opened now).entries.size ≤ (done.map Issue.key).toFinset.card := by
      refine TokenLedger.size_le_card (fun t' e' he' => (hrecent t' e' he').2) ?_
      intro t₁ t₂ e₁ e₂ he₁ he₂ hkey
      obtain ⟨hl₁, hx₁⟩ := TokenLedger.get_opened.mp he₁
      obtain ⟨hl₂, hx₂⟩ := TokenLedger.get_opened.mp he₂
      exact h.unique hl₁ hx₁ hl₂ hx₂ ((hrecent _ _ he₁).1.trans (hrecent _ _ he₂).1.symm)
        (Prod.mk.inj hkey).1 (Prod.mk.inj hkey).2
    have hnew : i.key ∉ (done.map Issue.key).toFinset := by
      intro hk
      obtain ⟨j, hj, hkey⟩ := List.mem_map.mp (List.mem_toFinset.mp hk)
      obtain ⟨e', he', hx, _, hs, hc, hv⟩ := h.held j hj
      obtain ⟨hclass, hvalue⟩ := Prod.mk.inj hkey
      exact TokenLedger.findReusable_isSome he' hs (hc.trans hclass) (hv.trans hvalue) hx missing
    rw [List.map_cons, List.toFinset_cons, Finset.card_insert_of_notMem hnew] at fits
    have hmax : (l.opened now).maxEntries = l.maxEntries := rfl
    omega
  · cases hevicted

/-- After one issue the entry under its token is used last. -/
theorem Recent.issue {ttl : Nat} (h : Recent scope now used done l) (few : used < u64Max) (httl : 0 < ttl)
    (issued : TokenLedger.Issued l scope i.dataClass i.value now ttl (.ok ⟨i.token, i.created⟩) l')
    (fits : ((i :: done).map Issue.key).toFinset.card ≤ l.maxEntries) :
    Recent scope now used (i :: done) l' := by
  have hlast : used < (l.opened now).sequence := by
    have hsequence : (l.opened now).sequence = min (l.sequence + 1) u64Max := rfl
    have hused := h.sequence
    omega
  have hkey : i.key ∈ (i :: done).map Issue.key := List.mem_cons_self
  generalize hresult : (Except.ok ⟨i.token, i.created⟩ : Except LedgerError IssuedToken) = r at issued
  cases issued with
  | rejected => cases hresult
  | failed => cases hresult
  | @reused t e₀ ok found =>
      obtain rfl : i.token = t := congrArg IssuedToken.token (Except.ok.inj hresult)
      obtain ⟨hget, hs, hc, hv, hx⟩ := TokenLedger.findReusable_spec found
      -- an entry afterwards is the refreshed one, or it is as it was
      have hentry : ∀ {t' e'}, ((l.opened now).entries.modify i.token fun e =>
          { e with lastUsedSequence := (l.opened now).sequence,
                   expiresAtMs := now + ttl * 1000 }).get t' = some e' →
          ∃ e, (l.opened now).entries.get t' = some e ∧ e'.scope = e.scope ∧
            e'.dataClass = e.dataClass ∧ e'.value = e.value ∧ (t' = i.token ∨ e' = e) := by
        intro t' e' he'
        rw [HashMap.get_modify] at he'
        split at he'
        · rename_i ht
          obtain ⟨e, he, rfl⟩ := Option.map_eq_some_iff.mp he'
          exact ⟨e, he, rfl, rfl, rfl, .inl ht⟩
        · exact ⟨e', he', rfl, rfl, rfl, .inr rfl⟩
      refine ⟨Nat.le_of_lt hlast, ?_, ?_, ?_⟩
      · intro t₁ t₂ e₁ e₂ he₁ _ he₂ _ hs hc hv
        obtain ⟨e₁', he₁, hs₁, hc₁, hv₁, _⟩ := hentry he₁
        obtain ⟨e₂', he₂, hs₂, hc₂, hv₂, _⟩ := hentry he₂
        obtain ⟨hl₁, hx₁⟩ := TokenLedger.get_opened.mp he₁
        obtain ⟨hl₂, hx₂⟩ := TokenLedger.get_opened.mp he₂
        exact h.unique hl₁ hx₁ hl₂ hx₂ (hs₁.symm.trans (hs.trans hs₂))
          (hc₁.symm.trans (hc.trans hc₂)) (hv₁.symm.trans (hv.trans hv₂))
      · intro t' e' he' hx' hused
        obtain ⟨e, he, hs', hc', hv', rfl | rfl⟩ := hentry he'
        · obtain rfl := Option.some.inj (hget.symm.trans he)
          rw [hs', hc', hv', hs, hc, hv]
          exact ⟨rfl, hkey⟩
        · obtain ⟨hl, hx⟩ := TokenLedger.get_opened.mp he
          obtain ⟨hs, hk⟩ := h.only hl hx hused
          exact ⟨hs, List.mem_cons_of_mem _ hk⟩
      · intro j hj
        rw [HashMap.get_modify]
        rcases List.mem_cons.mp hj with rfl | hj
        · rw [if_pos rfl, hget]
          exact ⟨_, rfl, by simp only; omega, hlast, hs, hc, hv⟩
        · obtain ⟨e, he, hx, hused, hs', hc', hv'⟩ := h.held j hj
          have ho := TokenLedger.get_opened_of_live he hx
          split
          · rename_i ht
            rw [ho]
            exact ⟨_, rfl, by simp only; omega, hlast, hs', hc', hv'⟩
          · exact ⟨e, ho, hx, hused, hs', hc', hv'⟩
  | @created encoded random ok missing shape fresh =>
      have htoken : i.token = tokenText i.dataClass encoded :=
        congrArg IssuedToken.token (Except.ok.inj hresult)
      rw [← htoken] at fresh ⊢
      have hentry : ∀ {t' e'}, ((l.opened now).makeRoom.entries.insert (i.token)
          ⟨scope, i.dataClass, i.value, now + ttl * 1000, (l.opened now).sequence⟩).get t' = some e' →
          (t' = i.token ∧
            e' = ⟨scope, i.dataClass, i.value, now + ttl * 1000, (l.opened now).sequence⟩) ∨
          (l.opened now).entries.get t' = some e' := by
        intro t' e' he'
        rw [HashMap.get_insert] at he'
        split at he'
        · rename_i ht
          exact .inl ⟨ht, (Option.some.inj he').symm⟩
        · exact .inr (TokenLedger.get_of_get_makeRoom he')
      have hother : ∀ {t e}, (l.opened now).entries.get t = some e →
          ¬(e.scope = scope ∧ e.dataClass = i.dataClass ∧ e.value = i.value) := fun he hsame =>
        TokenLedger.findReusable_eq_none missing he
          ⟨hsame.1, hsame.2.1, hsame.2.2, (TokenLedger.get_opened.mp he).2⟩
      refine ⟨?_, ?_, ?_, ?_⟩
      · rw [TokenLedger.makeRoom_sequence]
        exact Nat.le_of_lt hlast
      · intro t₁ t₂ e₁ e₂ he₁ _ he₂ _ hs hc hv
        rcases hentry he₁ with ⟨rfl, rfl⟩ | he₁
        · rcases hentry he₂ with ⟨rfl, _⟩ | he₂
          · rfl
          · exact absurd ⟨hs.symm, hc.symm, hv.symm⟩ (hother he₂)
        · rcases hentry he₂ with ⟨rfl, rfl⟩ | he₂
          · exact absurd ⟨hs, hc, hv⟩ (hother he₁)
          · obtain ⟨hl₁, hx₁⟩ := TokenLedger.get_opened.mp he₁
            obtain ⟨hl₂, hx₂⟩ := TokenLedger.get_opened.mp he₂
            exact h.unique hl₁ hx₁ hl₂ hx₂ hs hc hv
      · intro t' e' he' hx' hused
        rcases hentry he' with ⟨_, rfl⟩ | he'
        · exact ⟨rfl, hkey⟩
        · obtain ⟨hs, hk⟩ := h.only (TokenLedger.get_opened.mp he').1 hx' hused
          exact ⟨hs, List.mem_cons_of_mem _ hk⟩
      · intro j hj
        rw [HashMap.get_insert]
        rcases List.mem_cons.mp hj with rfl | hj
        · exact ⟨_, if_pos rfl, by simp only; omega, hlast, rfl, rfl, rfl⟩
        · obtain ⟨e, he, hx, hused, hs', hc', hv'⟩ := h.held j hj
          have hkept := h.makeRoom missing fits (TokenLedger.get_opened_of_live he hx) hused
          have hne : j.token ≠ i.token := by
            intro ht
            rw [← ht, hkept] at fresh
            cases fresh
          rw [if_neg hne]
          exact ⟨e, hkept, hx, hused, hs', hc', hv'⟩

variable [RandomSource R]

/-- A call whose values fit into the ledger keeps all its tokens. -/
theorem Issues.recent (h : Issues policy scope now l is l') (few : used < u64Max)
    (hrecent : Recent scope now used done l)
    (fits : ((is ++ done).map Issue.key).toFinset.card ≤ l.maxEntries) :
    ∃ done', (∀ i, i ∈ done' ↔ i ∈ is ++ done) ∧ Recent scope now used done' l' := by
  induction h generalizing done with
  | nil => exact ⟨done, fun _ => Iff.rfl, hrecent⟩
  | @cons l l₁ l₂ i is issue _ ih =>
      have hissued := Issue.issued issue
      have hone : ((i :: done).map Issue.key).toFinset.card ≤ l.maxEntries := by
        refine Nat.le_trans (Finset.card_le_card fun k hk => ?_) fits
        simp only [List.mem_toFinset, List.mem_map, List.mem_cons, List.mem_append] at hk ⊢
        grind
      have hrest : ((is ++ i :: done).map Issue.key).toFinset.card ≤ l₁.maxEntries := by
        rw [hissued.maxEntries]
        refine Nat.le_trans (Finset.card_le_card fun k hk => ?_) fits
        simp only [List.mem_toFinset, List.mem_map, List.mem_cons, List.mem_append] at hk ⊢
        grind
      obtain ⟨done', hmem, hrecent'⟩ := ih (hrecent.issue few (ttlSeconds_pos policy _) hissued hone) hrest
      refine ⟨done', fun j => (hmem j).trans ?_, hrecent'⟩
      simp only [List.mem_append, List.mem_cons]
      grind

end PrivacyEngine

end AgentVeil
