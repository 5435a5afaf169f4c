import AgentVeil.Engine.Lemmas.Verdict

/-!
# The rewriting of one string

The spans are replaced from the last to the first, so that a replacement moves nothing that is still
to be replaced. The ledger goes through one issue for each tokenized span.
-/

namespace AgentVeil

open Rust

namespace PrivacyEngine

variable {R : Type} [RandomSource R]

/-! ## Issues -/

/-- A successful call of `issue_tracked`: what was issued, and the token. -/
structure Issue where
  dataClass : DataClass
  value : Str
  token : Token
  created : Bool

/-- The ledger goes through these issues. -/
inductive Issues (policy : ValidatedPolicy) (scope : SessionScope) (nowMs : Nat) :
    TokenLedger R → List Issue → TokenLedger R → Prop where
  | nil {l} : Issues policy scope nowMs l [] l
  | cons {l l₁ l₂ i is}
      (issue : l.issueTracked scope i.dataClass i.value nowMs (ttlSeconds policy i.dataClass)
        = (.ok ⟨i.token, i.created⟩, l₁))
      (rest : Issues policy scope nowMs l₁ is l₂) : Issues policy scope nowMs l (i :: is) l₂

theorem Issues.append {policy : ValidatedPolicy} {scope : SessionScope} {now : Nat}
    {l l₁ l₂ : TokenLedger R} {is is' : List Issue} (h : Issues policy scope now l is l₁)
    (h' : Issues policy scope now l₁ is' l₂) : Issues policy scope now l (is ++ is') l₂ := by
  induction h with
  | nil => exact h'
  | cons issue _ ih => exact .cons issue (ih h')

/-- What was asked for. -/
def Issue.key (i : Issue) : DataClass × Str := (i.dataClass, i.value)

/-- What one finding asks for: a token, if it is tokenized. -/
def requested (original : Str) (f : Finding × Action) : List (DataClass × Str) :=
  if f.2 = .tokenize then (get? original f.1.sourceSpan).toList.map fun text => (f.1.dataClass, text)
  else []

/-- The tokens that the rollback of these issues removes. -/
def createdTokens (is : List Issue) : List Token := (is.filter (·.created)).map (·.token)

/-- A part of `apply_rewrites` that succeeds with these issues. -/
structure Progress (policy : ValidatedPolicy) (scope : SessionScope) (nowMs : Nat)
    (st : Rewriting R) (is : List Issue) (st' : Rewriting R) : Prop where
  issues : Issues policy scope nowMs st.ledger is st'.ledger
  created : st'.created = st.created ++ createdTokens is

/-- A part of `apply_rewrites` that fails, between two issues or at one; `work` is what it would have
asked for. -/
inductive Stopped (policy : ValidatedPolicy) (scope : SessionScope) (nowMs : Nat)
    (st : Rewriting R) (work : List (DataClass × Str)) : Rewriting R → Prop where
  | between {is st'} (progress : Progress policy scope nowMs st is st')
      (within : is.map Issue.key <+: work) : Stopped policy scope nowMs st work st'
  | issuing {is st₁ st' c v e} (progress : Progress policy scope nowMs st is st₁)
      (within : is.map Issue.key ++ [(c, v)] <+: work)
      (issue : st₁.ledger.issueTracked scope c v nowMs (ttlSeconds policy c)
        = (.error e, st'.ledger))
      (created : st'.created = st₁.created) : Stopped policy scope nowMs st work st'

/-- Why a part of `apply_rewrites` fails: an action blocks, or the ledger issues nothing for a value
that is asked for. -/
inductive Cause (policy : ValidatedPolicy) (scope : SessionScope) (nowMs : Nat) (start : TokenLedger R)
    (actions : List Action) (work : List (DataClass × Str)) (ledger : TokenLedger R) :
    Failure EngineError → Prop where
  | blocks (mem : .block ∈ actions) :
      Cause policy scope nowMs start actions work ledger (.err .blockedReachedRewrite)
  | issue {is} {l : TokenLedger R} {c v e} (before : Issues policy scope nowMs start is l)
      (asked : (c, v) ∈ work)
      (issue : l.issueTracked scope c v nowMs (ttlSeconds policy c) = (.error e, ledger)) :
      Cause policy scope nowMs start actions work ledger (.err (.ledger e))

variable {policy : ValidatedPolicy} {scope : SessionScope} {now : Nat} {st st₁ st₂ : Rewriting R}
  {is is' : List Issue} {work work' : List (DataClass × Str)}

theorem Cause.mono {start : TokenLedger R} {as as' : List Action} {l : TokenLedger R}
    {e : Failure EngineError} (h : Cause policy scope now start as work l e) (has : ∀ a ∈ as, a ∈ as')
    (hw : ∀ w ∈ work, w ∈ work') : Cause policy scope now start as' work' l e := by
  cases h with
  | blocks mem => exact .blocks (has _ mem)
  | issue before asked issue => exact .issue before (hw _ asked) issue

/-- Failing after other issues. -/
theorem Cause.after {start start' : TokenLedger R} {as : List Action} {l : TokenLedger R}
    {e : Failure EngineError} (h : Cause policy scope now start' as work l e)
    (issues : Issues policy scope now start is start') : Cause policy scope now start as work l e := by
  cases h with
  | blocks mem => exact .blocks mem
  | issue before asked issue => exact .issue (issues.append before) asked issue

theorem Progress.refl : Progress policy scope now st [] st := ⟨.nil, by simp [createdTokens]⟩

theorem Progress.trans (h : Progress policy scope now st is st₁)
    (h' : Progress policy scope now st₁ is' st₂) :
    Progress policy scope now st (is ++ is') st₂ where
  issues := h.issues.append h'.issues
  created := by rw [h'.created, h.created]; simp [createdTokens]

theorem Stopped.mono (h : Stopped policy scope now st work st₁) (hw : work <+: work') :
    Stopped policy scope now st work' st₁ := by
  cases h with
  | between p within => exact .between p (within.trans hw)
  | issuing p within issue created => exact .issuing p (within.trans hw) issue created

theorem Progress.stopped (h : Progress policy scope now st is st₁)
    (h' : Stopped policy scope now st₁ work st₂) :
    Stopped policy scope now st (is.map Issue.key ++ work) st₂ := by
  cases h' with
  | between p within =>
      refine .between (h.trans p) ?_
      rw [List.map_append]
      exact (List.prefix_append_right_inj _).mpr within
  | issuing p within issue created =>
      refine .issuing (h.trans p) ?_ issue created
      rw [List.map_append, List.append_assoc]
      exact (List.prefix_append_right_inj _).mpr within

/-! ## Redaction -/

/-- The text `w` stands for the text `original` of a finding. -/
def Replaces (is : List Issue) (f : Finding) (action : Action) (original w : Str) : Prop :=
  (action = .mask ∧ w = mask f.dataClass) ∨
    (action = .tokenize ∧ ∃ i ∈ is, i.dataClass = f.dataClass ∧ i.value = original ∧ i.token = w)

/-- The text from `off` on, with its findings in order, and what it is rewritten to: the text between
the findings and the allowed findings are copied, every other finding is replaced. The last argument
lists the spans that are copied. -/
inductive Redacted (is : List Issue) :
    Nat → Str → List (Finding × Action) → Str → List Span → Prop where
  | rest {off s} : Redacted is off s [] s [⟨off, off + len s⟩]
  | kept {off gap text s f fs out copied}
      (span : f.1.sourceSpan = ⟨off + len gap, off + len gap + len text⟩) (allowed : f.2 = .allow)
      (tail : Redacted is (off + len gap + len text) s fs out copied) :
      Redacted is off (gap ++ text ++ s) (f :: fs) (gap ++ text ++ out)
        (⟨off, off + len gap⟩ :: ⟨off + len gap, off + len gap + len text⟩ :: copied)
  | replaced {off gap text s w f fs out copied}
      (span : f.1.sourceSpan = ⟨off + len gap, off + len gap + len text⟩)
      (replaces : Replaces is f.1 f.2 text w)
      (tail : Redacted is (off + len gap + len text) s fs out copied) :
      Redacted is off (gap ++ text ++ s) (f :: fs) (gap ++ w ++ out)
        (⟨off, off + len gap⟩ :: copied)

theorem Replaces.mono {f : Finding} {a : Action} {o w : Str} (h : Replaces is f a o w)
    (hsub : ∀ i ∈ is, i ∈ is') : Replaces is' f a o w := by
  refine h.imp id fun ⟨ha, i, hi, h⟩ => ⟨ha, i, hsub i hi, h⟩

theorem Redacted.mono {off : Nat} {s out : Str} {fs : List (Finding × Action)} {copied : List Span}
    (h : Redacted is off s fs out copied) (hsub : ∀ i ∈ is, i ∈ is') :
    Redacted is' off s fs out copied := by
  induction h with
  | rest => exact .rest
  | kept span allowed _ ih => exact .kept span allowed ih
  | replaced span replaces _ ih => exact .replaced span (replaces.mono hsub) ih

/-- One more finding at the end, with the text after it. -/
theorem Redacted.snoc {off : Nat} {p out text gap w : Str} {fs : List (Finding × Action)}
    {copied : List Span} (h : Redacted is off p fs out copied) {f : Finding × Action}
    (span : f.1.sourceSpan = ⟨off + len p, off + len p + len text⟩)
    (hw : f.2 = .allow ∧ w = text ∨ Replaces is f.1 f.2 text w) :
    ∃ copied', Redacted is off (p ++ text ++ gap) (fs ++ [f]) (out ++ w ++ gap) copied' := by
  induction h with
  | rest =>
      rcases hw with ⟨allowed, rfl⟩ | replaces
      · exact ⟨_, .kept span allowed .rest⟩
      · exact ⟨_, .replaced span replaces .rest⟩
  | @kept off gap' text' s f' fs out copied span' allowed _ ih =>
      obtain ⟨copied', ih⟩ := ih (by rw [span]; simp [Nat.add_assoc])
      exact ⟨_, by simpa using Redacted.kept span' allowed ih⟩
  | @replaced off gap' text' s w' f' fs out copied span' replaces _ ih =>
      obtain ⟨copied', ih⟩ := ih (by rw [span]; simp [Nat.add_assoc])
      exact ⟨_, by simpa using Redacted.replaced span' replaces ih⟩

theorem Redacted.ne_block {off : Nat} {s out : Str} {fs : List (Finding × Action)}
    {copied : List Span} (h : Redacted is off s fs out copied) : ∀ f ∈ fs, f.2 ≠ .block := by
  induction h with
  | rest => simp
  | kept _ allowed _ ih => exact List.forall_mem_cons.mpr ⟨by rw [allowed]; exact nofun, ih⟩
  | replaced _ replaces _ ih =>
      refine List.forall_mem_cons.mpr ⟨?_, ih⟩
      rcases replaces with ⟨hm, _⟩ | ⟨ht, _⟩
      · rw [hm]; exact nofun
      · rw [ht]; exact nofun

/-- Nothing before the findings changes. -/
theorem Redacted.untouched {off : Nat} {s out : Str} {fs : List (Finding × Action)}
    {copied : List Span} (h : Redacted is off s fs out copied) {p q : Str} (hs : s = p ++ q)
    (hle : ∀ f ∈ fs, off + len p ≤ f.1.sourceSpan.start) : ∃ out', out = p ++ out' := by
  cases h with
  | rest => exact ⟨q, hs⟩
  | @kept _ gap text s f fs out copied span allowed tail =>
      have hgap := hle f (by simp)
      rw [span] at hgap
      obtain ⟨r, hr, _⟩ := append_split_le
        ((List.append_assoc gap text s).symm.trans hs).symm (by simp only at hgap; omega)
      exact ⟨r ++ text ++ out, by rw [hr]; simp⟩
  | @replaced _ gap text s w f fs out copied span replaces tail =>
      have hgap := hle f (by simp)
      rw [span] at hgap
      obtain ⟨r, hr, _⟩ := append_split_le
        ((List.append_assoc gap text s).symm.trans hs).symm (by simp only at hgap; omega)
      exact ⟨r ++ w ++ out, by rw [hr]; simp⟩

/-- A text whose findings are all allowed is left as it is. -/
theorem Redacted.eq_of_allowed {off : Nat} {s out : Str} {fs : List (Finding × Action)}
    {copied : List Span} (h : Redacted is off s fs out copied)
    (ha : ∀ f ∈ fs, f.2 = .allow) : out = s := by
  induction h with
  | rest => rfl
  | kept _ _ _ ih => rw [ih (List.forall_mem_cons.mp ha).2]
  | replaced _ replaces _ _ =>
      have hf := (List.forall_mem_cons.mp ha).1
      rcases replaces with ⟨hm, _⟩ | ⟨ht, _⟩
      · rw [hf] at hm; cases hm
      · rw [hf] at ht; cases ht

/-- Everything copied or replaced lies at `off` or after it. -/
theorem Redacted.le_start {off : Nat} {s out : Str} {fs : List (Finding × Action)}
    {copied : List Span} (h : Redacted is off s fs out copied) :
    (∀ f ∈ fs, off ≤ f.1.sourceSpan.start) ∧ ∀ c ∈ copied, off ≤ c.start := by
  induction h with
  | rest => simp
  | kept span _ _ ih =>
      refine ⟨List.forall_mem_cons.mpr ⟨by rw [span]; simp, fun f hf => ?_⟩,
        List.forall_mem_cons.mpr ⟨Nat.le_refl _, List.forall_mem_cons.mpr
          ⟨Nat.le_add_right _ _, fun c hc => ?_⟩⟩⟩
      · have := ih.1 f hf; omega
      · have := ih.2 c hc; omega
  | replaced span _ _ ih =>
      refine ⟨List.forall_mem_cons.mpr ⟨by rw [span]; simp, fun f hf => ?_⟩,
        List.forall_mem_cons.mpr ⟨Nat.le_refl _, fun c hc => ?_⟩⟩
      · have := ih.1 f hf; omega
      · have := ih.2 c hc; omega

/-- Nothing inside a finding that is not allowed is copied. -/
theorem Redacted.disjoint {off : Nat} {s out : Str} {fs : List (Finding × Action)}
    {copied : List Span} (h : Redacted is off s fs out copied) :
    ∀ f ∈ fs, f.2 ≠ .allow → ∀ c ∈ copied,
      c.stop ≤ f.1.sourceSpan.start ∨ f.1.sourceSpan.stop ≤ c.start := by
  induction h with
  | rest => simp
  | @kept off gap text s f fs out copied span allowed tail ih =>
      intro g hg hne
      rcases List.mem_cons.mp hg with rfl | hg
      · exact absurd allowed hne
      · have hstart := tail.le_start.1 g hg
        refine List.forall_mem_cons.mpr ⟨.inl ?_, List.forall_mem_cons.mpr ⟨.inl ?_, ih g hg hne⟩⟩
        · simp only; omega
        · exact hstart
  | @replaced off gap text s w f fs out copied span replaces tail ih =>
      intro g hg hne
      rcases List.mem_cons.mp hg with rfl | hg
      · rw [span]
        exact List.forall_mem_cons.mpr
          ⟨.inl (Nat.le_refl _), fun c hc => .inr (tail.le_start.2 c hc)⟩
      · have hstart := tail.le_start.1 g hg
        refine List.forall_mem_cons.mpr ⟨.inl ?_, ih g hg hne⟩
        simp only; omega

/-! ## One finding -/

theorem outcome_replacement (f : Finding) {action : Action} (ha : action ≠ .allow)
    (original : Str) (st : Rewriting R) :
    Outcome (fun w st' => ∃ is, Progress policy scope now st is st' ∧ st'.request = st.request ∧
        is.map Issue.key = (if action = .tokenize then [(f.dataClass, original)] else []) ∧
        Replaces is f action original w)
      (fun e st' => Stopped policy scope now st
          (if action = .tokenize then [(f.dataClass, original)] else []) st' ∧
        Cause policy scope now st.ledger [action]
          (if action = .tokenize then [(f.dataClass, original)] else []) st'.ledger e)
      (replacement policy scope now f action original st) := by
  cases action with
  | allow => exact absurd rfl ha
  | block => exact ⟨.between .refl List.nil_prefix, .blocks (List.mem_singleton_self _)⟩
  | mask => exact ⟨[], .refl, rfl, rfl, .inl ⟨rfl, rfl⟩⟩
  | tokenize =>
      unfold replacement
      simp only [↓reduceIte]
      split
      · rename_i e ledger h
        exact ⟨.issuing .refl (List.prefix_refl _) h rfl, .issue .nil (List.mem_singleton_self _) h⟩
      · rename_i issued ledger h
        refine ⟨[⟨f.dataClass, original, issued.token, issued.created⟩], ⟨.cons h .nil, ?_⟩, rfl, rfl,
          .inr ⟨rfl, _, List.mem_singleton_self _, rfl, rfl, rfl⟩⟩
        cases hc : issued.created with
        | true => simp [createdTokens]
        | false => simp [createdTokens]

/-- The finding is the text after `p`; nothing before it or after it changes. -/
theorem outcome_rewriteFinding (f : Finding × Action) {p text q tail : Str}
    (span : f.1.sourceSpan = ⟨len p, len p + len text⟩) (st : Rewriting R) :
    Outcome (fun out st' => ∃ is w, Progress policy scope now st is st' ∧
        st'.request = st.request ∧ is.map Issue.key = requested (p ++ text ++ q) f ∧
        out = p ++ w ++ tail ∧ (f.2 = .allow ∧ w = text ∨ Replaces is f.1 f.2 text w))
      (fun e st' => Stopped policy scope now st (requested (p ++ text ++ q) f) st' ∧
        Cause policy scope now st.ledger [f.2] (requested (p ++ text ++ q) f) st'.ledger e)
      (rewriteFinding policy scope now (p ++ text ++ q) f (p ++ text ++ tail) st) := by
  have hget : get? (p ++ text ++ q) f.1.sourceSpan = some text :=
    get?_eq_some_iff.mpr ⟨p, q, rfl, by rw [span], by rw [span]⟩
  have hrequested : requested (p ++ text ++ q) f
      = if f.2 = .tokenize then [(f.1.dataClass, text)] else [] := by
    simp only [requested, hget, Option.toList_some, List.map_cons, List.map_nil]
  unfold rewriteFinding
  by_cases ha : f.2 = .allow
  · rw [if_pos ha]
    exact ⟨[], text, .refl, rfl, by rw [hrequested, ha]; rfl, rfl, .inl ⟨ha, rfl⟩⟩
  · have hstart : isCharBoundary (p ++ text ++ tail) f.1.sourceSpan.start = true := by
      rw [span, List.append_assoc]; exact isCharBoundary_append _ _
    have hstop : isCharBoundary (p ++ text ++ tail) f.1.sourceSpan.stop = true := by
      rw [span, ← len_append]; exact isCharBoundary_append _ _
    have hreplace : ∀ w, replaceRange? (p ++ text ++ tail) f.1.sourceSpan w
        = some (p ++ w ++ tail) := fun w =>
      replaceRange?_append (by rw [span]) (by rw [span])
    have hboundary : ¬(isCharBoundary (p ++ text ++ tail) f.1.sourceSpan.start = false ∨
        isCharBoundary (p ++ text ++ tail) f.1.sourceSpan.stop = false) := by
      rw [hstart, hstop]; simp
    rw [if_neg ha, if_neg hboundary, hrequested]
    simp only [hget]
    have h : Outcome _ _ (replacement policy scope now f.1 f.2 text st) :=
      outcome_replacement f.1 ha text st
    generalize replacement policy scope now f.1 f.2 text st = r at h
    obtain ⟨e | w, st'⟩ := r
    · exact h
    · obtain ⟨is, hp, hr, hk, hw⟩ := h
      simp only [hreplace]
      exact ⟨is, w, hp, hr, hk, rfl, .inr hw⟩

/-! ## One string -/

omit [RandomSource R] in
/-- A range of a text that ends in its part `p`. -/
theorem exists_cut {p q : Str} {range : Span} (hr : SourceRange (p ++ q) range)
    (hstop : range.stop ≤ len p) :
    ∃ p₁ text gap, p = p₁ ++ text ++ gap ∧ range = ⟨len p₁, len p₁ + len text⟩ := by
  obtain ⟨p₁, b, hp, hp'⟩ := isCharBoundary_iff.mp hr.start
  obtain ⟨p₂, b₂, hp₂, hp₂'⟩ := isCharBoundary_iff.mp hr.stop
  obtain ⟨gap, rfl, _⟩ := append_split_le (hp₂.symm.trans rfl) (by omega : len p₂ ≤ len p)
  obtain ⟨text, rfl, _⟩ := append_split_le (hp.symm.trans hp₂) (by have := hr.lt; omega)
  rw [len_append] at hp₂'
  exact ⟨p₁, text, gap, rfl, by rw [hp₂', hp']⟩

/-- The findings lie in the part `p` of the text, which is not rewritten yet. -/
theorem outcome_rewriteFindings {fs : List (Finding × Action)} {p q tail : Str}
    (ordered : fs.Pairwise fun a b => a.1.sourceSpan.stop ≤ b.1.sourceSpan.start)
    (ranges : ∀ f ∈ fs, SourceRange (p ++ q) f.1.sourceSpan ∧ f.1.sourceSpan.stop ≤ len p)
    (st : Rewriting R) :
    Outcome (fun w st' => ∃ is out copied, Progress policy scope now st is st' ∧
        st'.request = st.request ∧
        is.map Issue.key = fs.reverse.flatMap (requested (p ++ q)) ∧
        Redacted is 0 p fs out copied ∧ w = out ++ tail)
      (fun e st' => Stopped policy scope now st (fs.reverse.flatMap (requested (p ++ q))) st' ∧
        Cause policy scope now st.ledger (fs.map Prod.snd)
          (fs.reverse.flatMap (requested (p ++ q))) st'.ledger e)
      (rewriteFindings policy scope now (p ++ q) fs.reverse (p ++ tail) st) := by
  induction fs using List.reverseRecOn generalizing p q tail st with
  | nil => exact ⟨[], p, _, .refl, rfl, rfl, .rest, rfl⟩
  | append_singleton fs f ih =>
      obtain ⟨hord, _, hle⟩ := List.pairwise_append.mp ordered
      obtain ⟨hr, hstop⟩ := ranges f (by simp)
      -- the part `p` ends with the last finding and the text after it
      obtain ⟨p', text, gap, rfl, span⟩ := exists_cut hr hstop
      have h : Outcome _ _ (rewriteFinding policy scope now (p' ++ text ++ (gap ++ q)) f
          (p' ++ text ++ (gap ++ tail)) st) :=
        outcome_rewriteFinding f span st
      simp only [List.reverse_append, List.reverse_cons, List.reverse_nil, List.nil_append,
        List.singleton_append, rewriteFindings, List.flatMap_cons]
      rw [show p' ++ text ++ gap ++ q = p' ++ text ++ (gap ++ q) by simp,
        show p' ++ text ++ gap ++ tail = p' ++ text ++ (gap ++ tail) by simp]
      generalize rewriteFinding policy scope now (p' ++ text ++ (gap ++ q)) f
        (p' ++ text ++ (gap ++ tail)) st = r at h
      obtain ⟨e | out, st₁⟩ := r
      · exact ⟨h.1.mono (List.prefix_append _ _),
          h.2.mono (by simp) fun w hw => List.mem_append_left _ hw⟩
      · obtain ⟨is, w, hprog, hreq, hkey, rfl, hw⟩ := h
        have ih : Outcome _ _ (rewriteFindings policy scope now (p' ++ (text ++ (gap ++ q)))
            fs.reverse (p' ++ (w ++ (gap ++ tail))) st₁) :=
          ih hord (fun g hg => by
            obtain ⟨hgr, _⟩ := ranges g (by simp [hg])
            have hgf := hle g hg f (by simp)
            refine ⟨by simpa using hgr, ?_⟩
            rw [span] at hgf
            exact hgf) st₁
        rw [← hkey]
        simp only
        rw [show p' ++ text ++ (gap ++ q) = p' ++ (text ++ (gap ++ q)) by simp,
          show p' ++ w ++ (gap ++ tail) = p' ++ (w ++ (gap ++ tail)) by simp]
        generalize rewriteFindings policy scope now (p' ++ (text ++ (gap ++ q))) fs.reverse
          (p' ++ (w ++ (gap ++ tail))) st₁ = r at ih
        obtain ⟨e | out', st₂⟩ := r
        · exact ⟨hprog.stopped ih.1, (ih.2.mono (by simp +contextual) fun w hw =>
            List.mem_append_right _ hw).after hprog.issues⟩
        · obtain ⟨is', out, copied, hprog', hreq', hkey', hred, rfl⟩ := ih
          have hred : Redacted (is ++ is') 0 p' fs out copied := hred.mono (by simp +contextual)
          obtain ⟨copied', hred'⟩ : ∃ copied', Redacted (is ++ is') 0 (p' ++ text ++ gap) (fs ++ [f])
              (out ++ w ++ gap) copied' :=
            hred.snoc (by rw [span]; simp) (hw.imp id fun h => h.mono (by simp +contextual))
          exact ⟨is ++ is', _, copied', hprog.trans hprog', hreq'.trans hreq,
            by rw [List.map_append, hkey'], hred', by simp⟩

end PrivacyEngine

end AgentVeil
