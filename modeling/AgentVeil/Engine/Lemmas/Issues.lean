import AgentVeil.Engine.Lemmas.Protect
import Mathlib.Data.Finset.Card

/-!
# The ledger over the issues of a request

Whatever the issues, an unexpired entry was there before or was created by one of them. When the
ledger has room for the values that have no token yet, nothing is evicted: every entry stays, and
every value issued keeps its token.
-/

namespace AgentVeil

open Rust

namespace TokenLedger

variable {R : Type}

/-- The number of unexpired entries. -/
def liveCount (l : TokenLedger R) (now : Nat) : Nat := (l.opened now).entries.size

theorem liveCount_le (l : TokenLedger R) (now : Nat) : l.liveCount now ≤ l.entries.size :=
  HashMap.size_retain_le _ _

/-- The values that have no token of the scope yet. -/
def missing (l : TokenLedger R) (scope : SessionScope) (now : Nat) (work : List (DataClass × Str)) :
    Finset (DataClass × Str) :=
  work.toFinset.filter fun k => (l.opened now).findReusable scope k.1 k.2 now = none

/-- The ledger has room for the tokens of these values. -/
def HasRoom (l : TokenLedger R) (scope : SessionScope) (now : Nat)
    (work : List (DataClass × Str)) : Prop :=
  l.liveCount now + (l.missing scope now work).card ≤ l.maxEntries

/-- The entry is the same, or its expiry was set anew for a value of the scope. -/
structure Renewed (scope : SessionScope) (now ttl : Nat) (e₀ e : Entry) : Prop where
  sameScope : e.scope = e₀.scope
  sameClass : e.dataClass = e₀.dataClass
  sameValue : e.value = e₀.value
  expiry : e.expiresAtMs = e₀.expiresAtMs ∨ e₀.scope = scope ∧ e.expiresAtMs = now + ttl * 1000

theorem Renewed.refl {scope : SessionScope} {now ttl : Nat} (e : Entry) :
    Renewed scope now ttl e e := ⟨rfl, rfl, rfl, .inl rfl⟩

theorem get_opened_of_live {l : TokenLedger R} {now : Nat} {t : Token} {e : Entry}
    (h : l.entries.get t = some e) (hx : now < e.expiresAtMs) :
    (l.opened now).entries.get t = some e := get_opened.mpr ⟨h, hx⟩

theorem findReusable_isSome {l : TokenLedger R} {scope : SessionScope} {c : DataClass} {v : Str}
    {now : Nat} {t : Token} {e : Entry} (h : l.entries.get t = some e) (hs : e.scope = scope)
    (hc : e.dataClass = c) (hv : e.value = v) (hx : now < e.expiresAtMs) :
    (l.opened now).findReusable scope c v now ≠ none := fun hn =>
  findReusable_eq_none hn (get_opened_of_live h hx) ⟨hs, hc, hv, hx⟩

variable {l l' : TokenLedger R} {scope : SessionScope} {c : DataClass} {v : Str}
  {now ttl : Nat} {r : Except LedgerError IssuedToken}

/-- An unexpired entry after an issue is the one it created, or it was there before. -/
theorem Issued.origin (h : Issued l scope c v now ttl r l') {t : Token} {e : Entry}
    (he : l'.entries.get t = some e) (hx : now < e.expiresAtMs) :
    (r = .ok ⟨t, true⟩ ∧ e.scope = scope) ∨
      ∃ e₀, l.entries.get t = some e₀ ∧ now < e₀.expiresAtMs ∧
        (e = e₀ ∨ e₀.dataClass = c ∧ e₀.value = v ∧ Renewed scope now ttl e₀ e) := by
  have keep : (l.opened now).entries.get t = some e →
      ∃ e₀, l.entries.get t = some e₀ ∧ now < e₀.expiresAtMs ∧
        (e = e₀ ∨ e₀.dataClass = c ∧ e₀.value = v ∧ Renewed scope now ttl e₀ e) := fun h =>
    ⟨e, (get_opened.mp h).1, hx, .inl rfl⟩
  cases h with
  | rejected => exact .inr ⟨e, he, hx, .inl rfl⟩
  | @reused t' e' _ found =>
      rw [HashMap.get_modify] at he
      split at he
      · rename_i ht
        subst ht
        obtain ⟨e₁, he₁, rfl⟩ := Option.map_eq_some_iff.mp he
        obtain ⟨hf, hs, hc, hv, _⟩ := findReusable_spec found
        obtain rfl := Option.some.inj (he₁.symm.trans hf)
        obtain ⟨hl, hx₁⟩ := get_opened.mp he₁
        exact .inr ⟨e₁, hl, hx₁, .inr ⟨hc, hv, rfl, rfl, rfl, .inr ⟨hs, rfl⟩⟩⟩
      · exact .inr (keep he)
  | created _ _ _ _ =>
      rw [HashMap.get_insert] at he
      split at he
      · rename_i ht
        cases he
        exact .inl ⟨by rw [ht], rfl⟩
      · exact .inr (keep (get_of_get_makeRoom he))
  | failed => exact .inr (keep (get_of_get_makeRoom he))

/-- Room depends on the unexpired entries only. -/
theorem hasRoom_of_sameLive (h : SameLive now l l') {work : List (DataClass × Str)}
    (hroom : l.HasRoom scope now work) : l'.HasRoom scope now work := by
  have hget : ∀ t, (l'.opened now).entries.get t = (l.opened now).entries.get t := fun t => by
    ext e
    rw [get_opened, get_opened, and_congr_left_iff]
    exact h.entries t e
  have hmissing : l'.missing scope now work ⊆ l.missing scope now work := by
    intro k hk
    simp only [missing, Finset.mem_filter, List.mem_toFinset] at hk ⊢
    refine ⟨hk.1, ?_⟩
    by_contra hsome
    obtain ⟨⟨t, e⟩, hf⟩ := Option.ne_none_iff_exists'.mp hsome
    obtain ⟨he, hs, hc, hv, hx⟩ := findReusable_spec hf
    rw [← hget] at he
    exact findReusable_isSome (get_opened.mp he).1 hs hc hv hx hk.2
  have hcard := Finset.card_le_card hmissing
  have hcount : l'.liveCount now = l.liveCount now := HashMap.size_eq_of_get hget
  unfold HasRoom at hroom ⊢
  rw [hcount, h.maxEntries]
  omega

theorem HasRoom.mono {work work' : List (DataClass × Str)} (h : l.HasRoom scope now work')
    (hsub : work ⊆ work') : l.HasRoom scope now work := by
  have hmissing : l.missing scope now work ⊆ l.missing scope now work' := fun k hk => by
    simp only [missing, Finset.mem_filter, List.mem_toFinset] at hk ⊢
    exact ⟨hsub hk.1, hk.2⟩
  have hcard := Finset.card_le_card hmissing
  unfold HasRoom at h ⊢
  omega

/-- Without an eviction an issue keeps every unexpired entry. -/
theorem Issued.keeps (h : Issued l scope c v now ttl r l') (httl : 0 < ttl)
    (hroom : (l.opened now).findReusable scope c v now = none → l.liveCount now < l.maxEntries)
    {t : Token} {e₀ : Entry} (he₀ : l.entries.get t = some e₀) (hx : now < e₀.expiresAtMs) :
    r ≠ .ok ⟨t, true⟩ ∧ ∃ e, l'.entries.get t = some e ∧ now < e.expiresAtMs ∧
      (e = e₀ ∨ e₀.dataClass = c ∧ e₀.value = v ∧ Renewed scope now ttl e₀ e) := by
  have ho := get_opened_of_live he₀ hx
  have hmake : (l.opened now).findReusable scope c v now = none →
      (l.opened now).makeRoom.entries.get t = some e₀ := fun hn => by
    have hlt : ¬(l.opened now).maxEntries ≤ (l.opened now).entries.size :=
      Nat.not_le.mpr (hroom hn)
    rw [makeRoom, if_neg hlt]; exact ho
  cases h with
  | rejected => exact ⟨nofun, e₀, he₀, hx, .inl rfl⟩
  | @reused t' e' _ found =>
      refine ⟨nofun, ?_⟩
      by_cases ht : t = t'
      · subst ht
        obtain ⟨hf, hs, hc, hv, _⟩ := findReusable_spec found
        obtain rfl := Option.some.inj (ho.symm.trans hf)
        have hget := HashMap.get_modify (l.opened now).entries t t fun e =>
          { e with lastUsedSequence := (l.opened now).sequence, expiresAtMs := now + ttl * 1000 }
        rw [if_pos rfl, ho] at hget
        exact ⟨_, hget, by simp only; omega, .inr ⟨hc, hv, rfl, rfl, rfl, .inr ⟨hs, rfl⟩⟩⟩
      · exact ⟨e₀, by rw [HashMap.get_modify, if_neg ht]; exact ho, hx, .inl rfl⟩
  | created _ missing _ fresh =>
      have hne : t ≠ tokenText c _ := fun ht => by
        rw [← ht, hmake missing] at fresh; cases fresh
      refine ⟨fun h => hne ?_, e₀, by rw [HashMap.get_insert, if_neg hne]; exact hmake missing, hx,
        .inl rfl⟩
      cases h; rfl
  | failed _ missing => exact ⟨nofun, e₀, hmake missing, hx, .inl rfl⟩

/-- The token issued is the one of its value. -/
theorem Issued.holds {i : IssuedToken} (h : Issued l scope c v now ttl (.ok i) l')
    (httl : 0 < ttl) : ∃ e, l'.entries.get i.token = some e ∧ now < e.expiresAtMs ∧
      e.scope = scope ∧ e.dataClass = c ∧ e.value = v := by
  cases h with
  | @reused t _ _ found =>
      obtain ⟨hf, hs, hc, hv, _⟩ := findReusable_spec found
      have hget := HashMap.get_modify (l.opened now).entries t t fun e =>
        { e with lastUsedSequence := (l.opened now).sequence, expiresAtMs := now + ttl * 1000 }
      rw [if_pos rfl, hf] at hget
      exact ⟨_, hget, by simp only; omega, hs, hc, hv⟩
  | created _ _ _ _ =>
      exact ⟨_, by rw [HashMap.get_insert, if_pos rfl], by simp only; omega, rfl, rfl, rfl⟩

theorem Issued.maxEntries (h : Issued l scope c v now ttl r l') : l'.maxEntries = l.maxEntries := by
  cases h with
  | rejected => rfl
  | reused => rfl
  | created => exact makeRoom_maxEntries _
  | failed => exact makeRoom_maxEntries _

theorem size_makeRoom_le (l : TokenLedger R) : l.makeRoom.entries.size ≤ l.entries.size := by
  rw [makeRoom_eq]
  split
  · exact Nat.le_refl _
  · exact HashMap.size_retain_le _ _

/-- A value with a token adds no entry, and another value adds at most one. -/
theorem Issued.liveCount_le {i : IssuedToken} (h : Issued l scope c v now ttl (.ok i) l') :
    l'.liveCount now ≤ l.liveCount now +
      (if (l.opened now).findReusable scope c v now = none then 1 else 0) := by
  refine Nat.le_trans (l'.liveCount_le now) ?_
  cases h with
  | reused _ found =>
      rw [found, if_neg nofun]
      exact Nat.le_of_eq (HashMap.size_modify _ _ _)
  | created _ missing _ fresh =>
      rw [if_pos missing]
      have := size_makeRoom_le (l.opened now)
      rw [HashMap.size_insert_of_notMem _ _ fresh]
      exact Nat.add_le_add_right this 1

end TokenLedger

namespace PrivacyEngine

open TokenLedger (Renewed)

variable {R : Type} [RandomSource R] {policy : ValidatedPolicy} {scope : SessionScope} {now : Nat}
  {l l' : TokenLedger R} {is : List Issue}

theorem ttlSeconds_pos (policy : ValidatedPolicy) (c : DataClass) : 0 < ttlSeconds policy c := by
  obtain ⟨_, _, hnone, htok⟩ := validateRule_ok_iff.mp (policy.ruleFor_valid c)
  by_cases ha : (policy.ruleFor c).action = .tokenize
  · exact (htok ha).1
  · rw [ttlSeconds, hnone ha]; decide

/-- The entry after some issues of a policy: the same, but that its expiry is set anew, for the lifetime
of its class, where its scope asked for its value again. -/
structure Persists (policy : ValidatedPolicy) (scope : SessionScope) (nowMs : Nat)
    (asked : DataClass × Str → Prop) (e₀ e : Entry) : Prop where
  sameScope : e.scope = e₀.scope
  sameClass : e.dataClass = e₀.dataClass
  sameValue : e.value = e₀.value
  expiry : e.expiresAtMs = e₀.expiresAtMs ∨ e₀.scope = scope ∧ asked (e₀.dataClass, e₀.value) ∧
    e.expiresAtMs = nowMs + ttlSeconds policy e₀.dataClass * 1000

variable {asked : DataClass × Str → Prop}

theorem Persists.refl (e : Entry) : Persists policy scope now asked e e := ⟨rfl, rfl, rfl, .inl rfl⟩

theorem Persists.of_issue {c : DataClass} {v : Str} {e₀ e : Entry} (hasked : asked (c, v))
    (h : e = e₀ ∨ e₀.dataClass = c ∧ e₀.value = v ∧ Renewed scope now (ttlSeconds policy c) e₀ e) :
    Persists policy scope now asked e₀ e := by
  rcases h with rfl | ⟨rfl, rfl, hr⟩
  · exact .refl _
  · refine ⟨hr.sameScope, hr.sameClass, hr.sameValue, ?_⟩
    rcases hr.expiry with hx | ⟨hs, hx⟩
    · exact .inl hx
    · exact .inr ⟨hs, hasked, hx⟩

theorem Persists.trans {e₀ e₁ e₂ : Entry} (h : Persists policy scope now asked e₀ e₁)
    (h' : Persists policy scope now asked e₁ e₂) : Persists policy scope now asked e₀ e₂ where
  sameScope := h'.sameScope.trans h.sameScope
  sameClass := h'.sameClass.trans h.sameClass
  sameValue := h'.sameValue.trans h.sameValue
  expiry := by
    rcases h'.expiry with hx | ⟨hs, ha, hx⟩
    · rw [hx]; exact h.expiry
    · rw [h.sameClass] at hx
      rw [h.sameClass, h.sameValue] at ha
      exact .inr ⟨h.sameScope ▸ hs, ha, hx⟩

theorem Persists.mono {asked' : DataClass × Str → Prop} {e₀ e : Entry}
    (h : Persists policy scope now asked e₀ e) (le : ∀ k, asked k → asked' k) :
    Persists policy scope now asked' e₀ e where
  sameScope := h.sameScope
  sameClass := h.sameClass
  sameValue := h.sameValue
  expiry := h.expiry.imp_right fun renewed => ⟨renewed.1, le _ renewed.2.1, renewed.2.2⟩

theorem Issue.issued {i : Issue}
    (h : l.issueTracked scope i.dataClass i.value now (ttlSeconds policy i.dataClass)
      = (.ok ⟨i.token, i.created⟩, l')) :
    TokenLedger.Issued l scope i.dataClass i.value now (ttlSeconds policy i.dataClass)
      (.ok ⟨i.token, i.created⟩) l' := by
  have := l.issueTracked_issued scope i.dataClass i.value now (ttlSeconds policy i.dataClass)
  rwa [h] at this

/-! ## Runs of issues -/

/-- An unexpired entry after the issues was created by one of them, or it was there before. -/
theorem Issues.origin (h : Issues policy scope now l is l') {t : Token} {e : Entry}
    (he : l'.entries.get t = some e) (hx : now < e.expiresAtMs) :
    (t ∈ createdTokens is ∧ e.scope = scope) ∨
      ∃ e₀, l.entries.get t = some e₀ ∧ now < e₀.expiresAtMs ∧
        Persists policy scope now (· ∈ is.map Issue.key) e₀ e := by
  induction h with
  | nil => exact .inr ⟨e, he, hx, .refl e⟩
  | @cons l l₁ l₂ i is issue _ ih =>
      rcases ih he with ⟨ht, hs⟩ | ⟨e₁, he₁, hx₁, hp⟩
      · refine .inl ⟨?_, hs⟩
        rw [createdTokens, List.filter_cons]
        split
        · exact List.mem_cons_of_mem _ ht
        · exact ht
      · rcases (Issue.issued issue).origin he₁ hx₁ with ⟨hr, hs⟩ | ⟨e₀, he₀, hx₀, hp₀⟩
        · simp only [Except.ok.injEq, IssuedToken.mk.injEq] at hr
          refine .inl ⟨?_, hp.sameScope.trans hs⟩
          rw [createdTokens, List.filter_cons, if_pos hr.2]
          exact List.mem_cons.mpr (.inl hr.1.symm)
        · exact .inr ⟨e₀, he₀, hx₀, (Persists.of_issue List.mem_cons_self hp₀).trans
            (hp.mono fun _ => List.mem_cons_of_mem _)⟩

omit [RandomSource R] in
/-- After an issue in a ledger with room there is room for the rest. -/
theorem hasRoom_of_issue {i : Issue} {more : List (DataClass × Str)}
    (hi : TokenLedger.Issued l scope i.dataClass i.value now (ttlSeconds policy i.dataClass)
      (.ok ⟨i.token, i.created⟩) l')
    (hroom : l.HasRoom scope now (i.key :: more)) :
    ((l.opened now).findReusable scope i.dataClass i.value now = none →
        l.liveCount now < l.maxEntries) ∧
      l'.HasRoom scope now more := by
  have hmem : (l.opened now).findReusable scope i.dataClass i.value now = none →
      i.key ∈ l.missing scope now (i.key :: more) := fun hn => by
    simp [TokenLedger.missing, Issue.key, hn]
  have hlt : (l.opened now).findReusable scope i.dataClass i.value now = none →
      l.liveCount now < l.maxEntries := fun hn => by
    have hpos := Finset.card_pos.mpr ⟨_, hmem hn⟩
    unfold TokenLedger.HasRoom at hroom
    omega
  refine ⟨hlt, ?_⟩
  -- what has no token afterwards had none before, and it is not the value issued
  have hsub : l'.missing scope now more ⊆ (l.missing scope now (i.key :: more)).erase i.key := by
    intro k hk
    simp only [TokenLedger.missing, Finset.mem_filter, List.mem_toFinset] at hk
    obtain ⟨hk, hnone⟩ := hk
    obtain ⟨e, he, hx, hs, hc, hv⟩ := hi.holds (ttlSeconds_pos policy _)
    refine Finset.mem_erase.mpr ⟨?_, ?_⟩
    · rintro rfl
      exact TokenLedger.findReusable_isSome he hs hc hv hx hnone
    · simp only [TokenLedger.missing, Finset.mem_filter, List.mem_toFinset]
      refine ⟨List.mem_cons_of_mem _ hk, ?_⟩
      by_contra hsome
      obtain ⟨⟨t, e₀⟩, hf⟩ := Option.ne_none_iff_exists'.mp hsome
      obtain ⟨he₀, hs₀, hc₀, hv₀, hx₀⟩ := TokenLedger.findReusable_spec hf
      obtain ⟨_, e₁, he₁, hx₁, hp⟩ := hi.keeps (ttlSeconds_pos policy _) hlt
        (TokenLedger.get_opened.mp he₀).1 hx₀
      have hp : Persists policy scope now (fun _ => True) e₀ e₁ := .of_issue trivial hp
      exact TokenLedger.findReusable_isSome he₁ (hp.sameScope.trans hs₀)
        (hp.sameClass.trans hc₀) (hp.sameValue.trans hv₀) hx₁ hnone
  have hcard := Finset.card_le_card hsub
  have hcount := hi.liveCount_le
  unfold TokenLedger.HasRoom at hroom ⊢
  rw [hi.maxEntries]
  split at hcount
  · rename_i hn
    rw [Finset.card_erase_of_mem (hmem hn)] at hcard
    have hpos := Finset.card_pos.mpr ⟨_, hmem hn⟩
    omega
  · have := Finset.card_le_card (Finset.erase_subset i.key (l.missing scope now (i.key :: more)))
    omega

/-- In a ledger with room the issues keep every unexpired entry and every token they return. -/
theorem Issues.keeps (h : Issues policy scope now l is l') {more : List (DataClass × Str)}
    (hroom : l.HasRoom scope now (is.map Issue.key ++ more)) :
    l'.HasRoom scope now more ∧
    (∀ t e₀, l.entries.get t = some e₀ → now < e₀.expiresAtMs → t ∉ createdTokens is ∧
      ∃ e, l'.entries.get t = some e ∧ now < e.expiresAtMs ∧
        Persists policy scope now (· ∈ is.map Issue.key) e₀ e) ∧
    ∀ i ∈ is, ∃ e, l'.entries.get i.token = some e ∧ now < e.expiresAtMs ∧ e.scope = scope ∧
      e.dataClass = i.dataClass ∧ e.value = i.value := by
  induction h with
  | nil =>
      exact ⟨by simpa using hroom, fun t e₀ he hx => ⟨by simp [createdTokens], e₀, he, hx, .refl _⟩,
        by simp⟩
  | @cons l l₁ l₂ i is issue _ ih =>
      have hi := Issue.issued issue
      obtain ⟨hlt, hroom₁⟩ := hasRoom_of_issue hi hroom
      obtain ⟨hmore, hold, hnew⟩ := ih hroom₁
      refine ⟨hmore, fun t e₀ he₀ hx₀ => ?_, List.forall_mem_cons.mpr ⟨?_, hnew⟩⟩
      · obtain ⟨hne, e₁, he₁, hx₁, hp₁⟩ := hi.keeps (ttlSeconds_pos policy _) hlt he₀ hx₀
        obtain ⟨hnot, e, he, hx, hp⟩ := hold t e₁ he₁ hx₁
        refine ⟨?_, e, he, hx, (Persists.of_issue List.mem_cons_self hp₁).trans
          (hp.mono fun _ => List.mem_cons_of_mem _)⟩
        rw [createdTokens, List.filter_cons]
        split
        · rename_i hc
          rw [List.map_cons, List.mem_cons, not_or]
          exact ⟨fun ht => hne (by rw [hc, ht]), hnot⟩
        · exact hnot
      · obtain ⟨e₁, he₁, hx₁, hs, hc, hv⟩ := hi.holds (ttlSeconds_pos policy _)
        obtain ⟨_, e, he, hx, hp⟩ := hold i.token e₁ he₁ hx₁
        exact ⟨e, he, hx, hp.sameScope.trans hs, hp.sameClass.trans hc, hp.sameValue.trans hv⟩

/-! ## Failed rewrites -/

variable {st st' : Rewriting R} {work : List (DataClass × Str)}

theorem Stopped.origin (h : Stopped policy scope now st work st') (hst : st.created = []) {t : Token}
    {e : Entry} (he : st'.ledger.entries.get t = some e) (hx : now < e.expiresAtMs) :
    (t ∈ st'.created ∧ e.scope = scope) ∨ ∃ e₀, st.ledger.entries.get t = some e₀ ∧
      now < e₀.expiresAtMs ∧ Persists policy scope now (· ∈ work) e₀ e := by
  cases h with
  | between p within =>
      rw [p.created, hst]
      rcases p.issues.origin he hx with hnew | ⟨e₀, he₀, hx₀, hp⟩
      · exact .inl hnew
      · exact .inr ⟨e₀, he₀, hx₀, hp.mono fun _ hk => within.subset hk⟩
  | @issuing is st₁ _ c v er p within issue created =>
      have hi := st₁.ledger.issueTracked_issued scope c v now (ttlSeconds policy c)
      rw [issue] at hi
      rcases hi.origin he hx with ⟨hr, _⟩ | ⟨e₁, he₁, hx₁, hp₁⟩
      · cases hr
      · have hp₁ : Persists policy scope now (· ∈ work) e₁ e :=
          .of_issue (within.subset (by simp)) hp₁
        rw [created, p.created, hst]
        rcases p.issues.origin he₁ hx₁ with ⟨ht, hs⟩ | ⟨e₀, he₀, hx₀, hp₀⟩
        · exact .inl ⟨ht, hp₁.sameScope.trans hs⟩
        · exact .inr ⟨e₀, he₀, hx₀,
            (hp₀.mono fun _ hk => within.subset (List.mem_append_left _ hk)).trans hp₁⟩

theorem Stopped.keeps (h : Stopped policy scope now st work st') (hst : st.created = [])
    (hroom : st.ledger.HasRoom scope now work) {t : Token} {e₀ : Entry}
    (he₀ : st.ledger.entries.get t = some e₀) (hx₀ : now < e₀.expiresAtMs) :
    t ∉ st'.created ∧ ∃ e, st'.ledger.entries.get t = some e ∧ now < e.expiresAtMs ∧
      Persists policy scope now (· ∈ work) e₀ e := by
  cases h with
  | @between is _ p within =>
      have hroom : st.ledger.HasRoom scope now (is.map Issue.key ++ []) :=
        hroom.mono (by rw [List.append_nil]; exact within.subset)
      obtain ⟨_, hold, _⟩ := p.issues.keeps hroom
      rw [p.created, hst]
      obtain ⟨hnot, e, he, hx, hp⟩ := hold t e₀ he₀ hx₀
      exact ⟨hnot, e, he, hx, hp.mono fun _ hk => within.subset hk⟩
  | @issuing is st₁ _ c v er p within issue created =>
      obtain ⟨hmore, hold, _⟩ := p.issues.keeps (hroom.mono within.subset)
      obtain ⟨hnot, e₁, he₁, hx₁, hp₁⟩ := hold t e₀ he₀ hx₀
      have hi := st₁.ledger.issueTracked_issued scope c v now (ttlSeconds policy c)
      rw [issue] at hi
      obtain ⟨_, e, he, hx, hp⟩ := hi.keeps (ttlSeconds_pos policy c) (fun hn => by
        have hpos : 0 < (st₁.ledger.missing scope now [(c, v)]).card :=
          Finset.card_pos.mpr ⟨(c, v), by simp [TokenLedger.missing, hn]⟩
        unfold TokenLedger.HasRoom at hmore
        omega) he₁ hx₁
      refine ⟨?_, e, he, hx, (hp₁.mono fun _ hk => within.subset (List.mem_append_left _ hk)).trans
        (.of_issue (within.subset (by simp)) hp)⟩
      rw [created, p.created, hst]
      exact hnot

end PrivacyEngine

end AgentVeil
