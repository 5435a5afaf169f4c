import Mathlib.Logic.Function.Basic

/-!
# Concurrent tasks

Any number of tasks take turns. A turn reads and writes the state of the task and what all tasks
share, and shows an event. Where a turn has several outcomes, a choice says which.
-/

namespace AgentVeil.Rust

/-- The tasks, what they share, and what they have shown so far. -/
structure Tasks (ι S L O : Type) where
  shared : S
  locals : ι → L
  log : List (ι × O)

variable {ι S L C O : Type}

/-- What one task has shown. -/
def events [DecidableEq ι] (i : ι) (log : List (ι × O)) : List O :=
  (log.filter (·.1 = i)).map Prod.snd

section Events

variable [DecidableEq ι]

theorem events_append (i : ι) (log log' : List (ι × O)) :
    events i (log ++ log') = events i log ++ events i log' := by
  simp [events]

@[simp] theorem events_self (i : ι) (o : O) : events i [(i, o)] = [o] := by simp [events]

theorem events_other {i j : ι} (h : j ≠ i) (o : O) : events i [(j, o)] = [] := by
  simp [events, h]

theorem mem_events {i : ι} {log : List (ι × O)} {o : O} : o ∈ events i log ↔ (i, o) ∈ log := by
  simp only [events, List.mem_map, List.mem_filter, decide_eq_true_eq]
  constructor
  · rintro ⟨⟨j, o⟩, ⟨h, rfl⟩, rfl⟩
    exact h
  · intro h
    exact ⟨(i, o), ⟨h, rfl⟩, rfl⟩

end Events

namespace Tasks

/-- One turn of task `i`; none if the task cannot move in that way. -/
def turn [DecidableEq ι] (next : ι → C → L → S → Option (O × L × S)) (t : Tasks ι S L O) (i : ι)
    (c : C) : Option (Tasks ι S L O) :=
  (next i c (t.locals i) t.shared).map fun r =>
    ⟨r.2.2, Function.update t.locals i r.2.1, t.log ++ [(i, r.1)]⟩

def start (shared : S) (l : L) : Tasks ι S L O := ⟨shared, fun _ => l, []⟩

variable [DecidableEq ι] {next : ι → C → L → S → Option (O × L × S)}
  {meets : Tasks ι S L O → ι → C → Prop} {t₀ t t' : Tasks ι S L O}

/-- The states that turns lead to when each turn meets a condition on the state before it. -/
inductive Run (next : ι → C → L → S → Option (O × L × S)) (meets : Tasks ι S L O → ι → C → Prop)
    (t₀ : Tasks ι S L O) : Tasks ι S L O → Prop where
  | start : Run next meets t₀ t₀
  | turn {t t' i c} (run : Run next meets t₀ t) (met : meets t i c) (move : t.turn next i c = some t') :
      Run next meets t₀ t'

/-- Any order of turns. -/
abbrev Reachable (next : ι → C → L → S → Option (O × L × S)) (t₀ t : Tasks ι S L O) : Prop :=
  Run next (fun _ _ _ => True) t₀ t

theorem turn_eq_some {i : ι} {c : C} : t.turn next i c = some t' ↔
    ∃ o l s, next i c (t.locals i) t.shared = some (o, l, s) ∧
      t' = ⟨s, Function.update t.locals i l, t.log ++ [(i, o)]⟩ := by
  simp only [turn, Option.map_eq_some_iff]
  constructor
  · rintro ⟨⟨o, l, s⟩, h, rfl⟩
    exact ⟨o, l, s, h, rfl⟩
  · rintro ⟨o, l, s, h, rfl⟩
    exact ⟨_, h, rfl⟩

theorem Run.mono {meets' : Tasks ι S L O → ι → C → Prop} (h : Run next meets t₀ t)
    (hm : ∀ t i c, meets t i c → meets' t i c) : Run next meets' t₀ t := by
  induction h with
  | start => exact .start
  | turn _ met move ih => exact .turn ih (hm _ _ _ met) move

/-- The rule of invariants. -/
theorem Run.invariant {I : Tasks ι S L O → Prop} (h : Run next meets t₀ t) (init : I t₀)
    (step : ∀ t t' i c, I t → meets t i c → t.turn next i c = some t' → I t') : I t := by
  induction h with
  | start => exact init
  | turn _ met move ih => exact step _ _ _ _ ih met move

/-- A task that takes no turn stays where it is. -/
theorem Run.untouched {i : ι} (h : Run next meets t₀ t) (hne : ∀ t j c, meets t j c → i ≠ j) :
    t.locals i = t₀.locals i := by
  induction h with
  | start => rfl
  | @turn t t' j c _ met move ih =>
      obtain ⟨o, l, s, _, rfl⟩ := turn_eq_some.mp move
      simpa [Function.update_of_ne (hne t j c met)] using ih

/-- The turn that showed an event of the log. -/
theorem Run.moment (h : Run next meets t₀ t) (h₀ : t₀.log = []) {pre post : List (ι × O)} {i : ι}
    {o : O} (hlog : t.log = pre ++ (i, o) :: post) :
    ∃ t₁ c l s, Run next meets t₀ t₁ ∧ meets t₁ i c ∧ t₁.log = pre ∧
      next i c (t₁.locals i) t₁.shared = some (o, l, s) := by
  induction h generalizing post with
  | start => simp [h₀] at hlog
  | @turn t₁ t₂ j c run met move ih =>
      obtain ⟨o', l, s, hnext, rfl⟩ := turn_eq_some.mp move
      rcases List.eq_nil_or_concat post with rfl | ⟨post', last, rfl⟩
      · obtain ⟨hpre, hlast⟩ := List.append_inj' hlog rfl
        cases hlast
        exact ⟨t₁, c, l, s, run, met, hpre, hnext⟩
      · rw [List.concat_eq_append, ← List.cons_append, ← List.append_assoc] at hlog
        exact ih (List.append_inj' hlog rfl).1

/-- The rule of one task: what holds of its state and its own events at the start, and after each of
its turns, whatever the others leave in what is shared, always holds. -/
theorem Run.local_invariant {P : ι → L → List O → Prop} {shared : S} {l₀ : L}
    (h : Run next meets (Tasks.start shared l₀) t) (init : ∀ i, P i l₀ [])
    (step : ∀ i c l s os o l' s', P i l os → next i c l s = some (o, l', s') → P i l' (os ++ [o]))
    (i : ι) : P i (t.locals i) (events i t.log) := by
  refine h.invariant (I := fun t => ∀ i, P i (t.locals i) (events i t.log)) init
    (fun t t' j c hown _ hturn i => ?_) i
  obtain ⟨o, l, s, hnext, rfl⟩ := turn_eq_some.mp hturn
  rw [events_append]
  by_cases hij : j = i
  · subst hij
    simp only [events_self, Function.update_self]
    exact step j c _ _ _ o l s (hown j) hnext
  · simp only [events_other hij, List.append_nil, Function.update_of_ne (Ne.symm hij)]
    exact hown i

/-- The rule of what is shared and of the whole log. -/
theorem Run.shared_invariant {I : S → List (ι × O) → Prop} (h : Run next meets t₀ t)
    (init : I t₀.shared t₀.log)
    (step : ∀ i c l s log o l' s', I s log → next i c l s = some (o, l', s') →
      I s' (log ++ [(i, o)])) : I t.shared t.log := by
  refine h.invariant (I := fun t => I t.shared t.log) init fun t t' i c hinv _ hturn => ?_
  obtain ⟨o, l, s, hnext, rfl⟩ := turn_eq_some.mp hturn
  exact step i c _ _ _ o l s hinv hnext

/-- The turns of a schedule. -/
def exec (next : ι → C → L → S → Option (O × L × S)) :
    Tasks ι S L O → List (ι × C) → Option (Tasks ι S L O)
  | t, [] => some t
  | t, (i, c) :: rest => (t.turn next i c).bind fun t => exec next t rest

theorem run_of_exec {schedule : List (ι × C)} (hrun : Run next meets t₀ t)
    (hmeets : ∀ t, ∀ a ∈ schedule, meets t a.1 a.2) (h : exec next t schedule = some t') :
    Run next meets t₀ t' := by
  induction schedule generalizing t with
  | nil =>
      obtain rfl := Option.some.inj h
      exact hrun
  | cons a rest ih =>
      obtain ⟨t₁, hturn, hrest⟩ := Option.bind_eq_some_iff.mp h
      exact ih (.turn hrun (hmeets t a (List.mem_cons_self ..)) hturn)
        (fun t a ha => hmeets t a (List.mem_cons_of_mem _ ha)) hrest

/-! ## Tasks that finish -/

section Rank

variable (rank : L → Nat)

/-- When every turn lowers a rank, but for those that show an event which the task waits with, a task
shows at most as many other events as the rank it starts with. -/
theorem Run.rank_bound (waits : O → Bool) {shared : S} {l₀ : L}
    (h : Run next meets (Tasks.start shared l₀) t)
    (lowers : ∀ i c l s o l' s', next i c l s = some (o, l', s') →
      (waits o = true ∧ rank l' = rank l) ∨ rank l' < rank l) (i : ι) :
    (events i t.log).countP (fun o => !waits o) + rank (t.locals i) ≤ rank l₀ := by
  apply h.local_invariant (P := fun _ l os => os.countP (fun o => !waits o) + rank l ≤ rank l₀)
  · simp
  intro i c l s os o l' s' hinv move
  rw [List.countP_append, List.countP_singleton]
  rcases lowers i c l s o l' s' move with ⟨hwaits, hsame⟩ | hlower
  · rw [hwaits, hsame]
    simpa using hinv
  · have : (if (!waits o) = true then 1 else 0) ≤ 1 := by split <;> omega
    omega

/-- A task that can always lower its rank, whatever the others leave it, comes to rank zero in as many
turns of its own, and the other tasks stay where they are. -/
theorem exec_finishes {i : ι}
    (moves : ∀ l s, rank l ≠ 0 → ∃ c o l' s', next i c l s = some (o, l', s') ∧ rank l' < rank l)
    (t : Tasks ι S L O) : ∃ cs : List C, cs.length ≤ rank (t.locals i) ∧ ∃ t',
      exec next t (cs.map (i, ·)) = some t' ∧ rank (t'.locals i) = 0 ∧
        ∀ j, j ≠ i → t'.locals j = t.locals j := by
  generalize hn : rank (t.locals i) = n
  induction n using Nat.strongRecOn generalizing t with
  | ind n ih =>
      subst hn
      by_cases hzero : rank (t.locals i) = 0
      · exact ⟨[], Nat.zero_le _, t, rfl, hzero, fun _ _ => rfl⟩
      obtain ⟨c, o, l', s', hnext, hlower⟩ := moves _ t.shared hzero
      have hturn : t.turn next i c
          = some ⟨s', Function.update t.locals i l', t.log ++ [(i, o)]⟩ :=
        turn_eq_some.mpr ⟨o, l', s', hnext, rfl⟩
      generalize ht₁ : (⟨s', Function.update t.locals i l', t.log ++ [(i, o)]⟩ : Tasks ι S L O) = t₁
        at hturn
      have hown : t₁.locals i = l' := by simp [← ht₁]
      have hothers : ∀ j, j ≠ i → t₁.locals j = t.locals j := by
        intro j hj
        simp [← ht₁, Function.update_of_ne hj]
      obtain ⟨cs, hlen, t', hexec, hend, hlocals⟩ := ih _ (hown ▸ hlower) t₁ rfl
      refine ⟨c :: cs, ?_, t', ?_, hend, fun j hj => (hlocals j hj).trans (hothers j hj)⟩
      · rw [hown] at hlen
        simp only [List.length_cons]
        omega
      · rw [List.map_cons, exec, hturn]
        exact hexec

end Rank

end Tasks

end AgentVeil.Rust
