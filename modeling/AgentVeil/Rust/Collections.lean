import Mathlib.Algebra.GroupWithZero.Nat
import Mathlib.Data.List.Sort
import Mathlib.Data.List.Nodup

/-!
# Results, sorting and hash maps

The standard-library operations on collections. A computation returns a value, returns an error or
panics. Sorts are stable. A hash map is its set of entries together with an arbitrary iteration
order, so that nothing proved about it depends on the order the hasher gives.
-/

namespace AgentVeil.Rust

/-! ## Results -/

/-- How a call fails to give a value: it returns `Err(e)`, or it panics. -/
inductive Failure (ε : Type) where
  | err (e : ε)
  | panic
  deriving DecidableEq, Repr

/-- `Result<α, ε>` of a function that may also panic. -/
abbrev Fallible (ε α : Type) := Except (Failure ε) α

/-- `Err(e)`. -/
def err {ε α : Type} (e : ε) : Fallible ε α := .error (.err e)

/-- An operation that panics when it has no value, as a slice or an index does. -/
def orPanic {ε α : Type} : Option α → Fallible ε α
  | some a => .ok a
  | none => .error .panic

/-- A call that reads and writes a state and may return an error; the state is kept then. -/
abbrev Effect (σ ε α : Type) := ExceptT ε (StateM σ) α

/-- A call that does not touch the state. -/
def Effect.ofExcept {σ ε α : Type} (x : Except ε α) : Effect σ ε α := fun st => (x, st)

/-- `Option::ok_or`, with the `?` operator. -/
def Effect.okOr {σ ε α : Type} (o : Option α) (e : ε) : Effect σ ε α :=
  match o with
  | some a => pure a
  | none => throw e

/-- The `?` operator's conversion of an error. -/
def Failure.mapErr {ε δ : Type} (f : ε → δ) : Failure ε → Failure δ
  | .err e => .err (f e)
  | .panic => .panic

/-- `if !(p) { return Err(e) }`. -/
def ensure {ε : Type} (p : Prop) [Decidable p] (e : ε) : Except ε Unit :=
  if p then .ok () else .error e

/-- `Option::ok_or`. -/
def okOr {ε α : Type} (o : Option α) (e : ε) : Except ε α :=
  match o with
  | some a => .ok a
  | none => .error e

/-- A loop that pushes what each step gives, and stops at the first error. -/
def gather {ε α β : Type} (f : α → Except ε (List β)) : List α → Except ε (List β)
  | [] => .ok []
  | a :: l => do
      let bs ← f a
      let rest ← gather f l
      .ok (bs ++ rest)

theorem Effect.bind_eq {σ ε α β : Type} (x : Effect σ ε α) (f : α → Effect σ ε β) (st : σ) :
    (x >>= f) st = match x st with
      | (.error e, st) => (.error e, st)
      | (.ok a, st) => f a st := by
  simp only [bind, ExceptT.bind, ExceptT.mk, StateT.bind]
  cases x st with
  | mk r st =>
      cases r with
      | error e => rfl
      | ok a => rfl

theorem Effect.bind_ok_iff {σ ε α β : Type} {x : Effect σ ε α} {f : α → Effect σ ε β} {b : β}
    {st st'' : σ} : (x >>= f) st = (.ok b, st'') ↔
      ∃ a st', x st = (.ok a, st') ∧ f a st' = (.ok b, st'') := by
  rw [Effect.bind_eq]
  cases x st with
  | mk r st' =>
      cases r with
      | error e =>
          constructor
          · rintro ⟨⟩
          · rintro ⟨_, _, ⟨⟩, _⟩
      | ok a =>
          constructor
          · exact fun h => ⟨a, st', rfl, h⟩
          · rintro ⟨_, _, h, hf⟩
            cases h
            exact hf

theorem Effect.bind_error_iff {σ ε α β : Type} {x : Effect σ ε α} {f : α → Effect σ ε β} {e : ε}
    {st st'' : σ} : (x >>= f) st = (.error e, st'') ↔
      x st = (.error e, st'') ∨ ∃ a st', x st = (.ok a, st') ∧ f a st' = (.error e, st'') := by
  rw [Effect.bind_eq]
  cases x st with
  | mk r st' =>
      cases r with
      | error e' =>
          constructor
          · rintro ⟨⟩
            exact .inl rfl
          · rintro (⟨⟨⟩⟩ | ⟨_, _, ⟨⟩, _⟩)
            rfl
      | ok a =>
          constructor
          · exact fun h => .inr ⟨a, st', rfl, h⟩
          · rintro (⟨⟨⟩⟩ | ⟨_, _, h, hf⟩)
            cases h
            exact hf

theorem Effect.pure_ok_iff {σ ε α : Type} {a b : α} {st st' : σ} :
    (pure a : Effect σ ε α) st = (.ok b, st') ↔ a = b ∧ st = st' := by
  constructor
  · rintro ⟨⟩
    exact ⟨rfl, rfl⟩
  · rintro ⟨rfl, rfl⟩
    rfl

theorem Effect.ofExcept_ok_iff {σ ε α : Type} {x : Except ε α} {a : α} {st st' : σ} :
    (Effect.ofExcept x : Effect σ ε α) st = (.ok a, st') ↔ x = .ok a ∧ st = st' := by
  constructor
  · rintro ⟨⟩
    exact ⟨rfl, rfl⟩
  · rintro ⟨rfl, rfl⟩
    rfl

theorem Effect.okOr_ok_iff {σ ε α : Type} {o : Option α} {e : ε} {a : α} {st st' : σ} :
    (Effect.okOr o e : Effect σ ε α) st = (.ok a, st') ↔ o = some a ∧ st = st' := by
  cases o with
  | none =>
      constructor
      · rintro ⟨⟩
      · rintro ⟨⟨⟩, _⟩
  | some b =>
      constructor
      · rintro ⟨⟩
        exact ⟨rfl, rfl⟩
      · rintro ⟨⟨⟩, rfl⟩
        rfl

theorem Effect.throw_ok_iff {σ ε α : Type} {e : ε} {a : α} {st st' : σ} :
    ¬(throw e : Effect σ ε α) st = (.ok a, st') := by
  rintro ⟨⟩

section Fallible

variable {ε α β : Type}

theorem ok_bind (a : α) (f : α → Except ε β) : (.ok a >>= f) = f a := rfl

theorem error_bind (e : ε) (f : α → Except ε β) : (.error e >>= f) = .error e := rfl

theorem bind_ok_iff {x : Except ε α} {f : α → Except ε β} {b : β} :
    (x >>= f) = .ok b ↔ ∃ a, x = .ok a ∧ f a = .ok b := by
  cases x <;> simp [bind, Except.bind]

theorem bind_error_iff {x : Except ε α} {f : α → Except ε β} {e : ε} :
    (x >>= f) = .error e ↔ x = .error e ∨ ∃ a, x = .ok a ∧ f a = .error e := by
  cases x <;> simp [bind, Except.bind]

theorem map_ok_iff {x : Except ε α} {f : α → β} {b : β} :
    x.map f = .ok b ↔ ∃ a, x = .ok a ∧ f a = b := by
  cases x with
  | error e => simp [Except.map]
  | ok a => simp [Except.map]

theorem check_bind_ok_iff {x : Except ε Unit} {f : Unit → Except ε β} {b : β} :
    (x >>= f) = .ok b ↔ x = .ok () ∧ f () = .ok b := by
  cases x <;> simp [bind, Except.bind]

@[simp] theorem ensure_ok_iff {p : Prop} [Decidable p] {e : ε} : ensure p e = .ok () ↔ p := by
  unfold ensure; split <;> simp [*]

/-- A loop that only checks succeeds exactly when every check does. -/
theorem forM_ok_iff {f : α → Except ε Unit} {l : List α} :
    l.forM f = .ok () ↔ ∀ a ∈ l, f a = .ok () := by
  induction l with
  | nil => simp [List.forM, pure, Except.pure]
  | cons a l ih =>
      have hcons : (a :: l).forM f = f a >>= fun _ => l.forM f := rfl
      rw [hcons, check_bind_ok_iff, ih, List.forall_mem_cons]

@[simp] theorem okOr_ok_iff {o : Option α} {e : ε} {a : α} : okOr o e = .ok a ↔ o = some a := by
  cases o <;> simp [okOr]

theorem exists_ok_of_any {x : Except ε α} {p : α → Bool} (h : x.toOption.any p = true) :
    ∃ a, x = .ok a ∧ p a = true := by
  cases x with
  | error e => cases h
  | ok a => exact ⟨a, rfl, h⟩

/-- What a loop pushes is what its steps give, in order. -/
theorem gather_ok_iff {f : α → Except ε (List β)} {l : List α} {r : List β} :
    gather f l = .ok r ↔ ∃ rs, List.Forall₂ (fun a bs => f a = .ok bs) l rs ∧ r = rs.flatten := by
  induction l generalizing r with
  | nil =>
      simp only [gather, Except.ok.injEq, List.forall₂_nil_left_iff, exists_eq_left,
        List.flatten_nil, eq_comm]
  | cons a l ih =>
      simp only [gather, bind_ok_iff, Except.ok.injEq, ih, List.forall₂_cons_left_iff]
      constructor
      · rintro ⟨bs, hb, _, ⟨rs, hrs, rfl⟩, rfl⟩; exact ⟨bs :: rs, ⟨bs, rs, hb, hrs, rfl⟩, rfl⟩
      · rintro ⟨_, ⟨bs, rs, hb, hrs, rfl⟩, rfl⟩; exact ⟨bs, hb, _, ⟨rs, hrs, rfl⟩, rfl⟩

/-- The computation gives a value. -/
def Succeeds (x : Except ε α) : Prop := ∃ a, x = .ok a

theorem succeeds_ok (a : α) : Succeeds (.ok a : Except ε α) := ⟨a, rfl⟩

theorem not_succeeds_error (e : ε) : ¬Succeeds (.error e : Except ε α) := nofun

theorem succeeds_bind_iff {x : Except ε α} {f : α → Except ε β} :
    Succeeds (x >>= f) ↔ ∃ a, x = .ok a ∧ Succeeds (f a) := by
  unfold Succeeds
  simp only [bind_ok_iff]
  constructor
  · intro ⟨b, a, ha, hb⟩
    exact ⟨a, ha, b, hb⟩
  · intro ⟨a, ha, b, hb⟩
    exact ⟨b, a, ha, hb⟩

theorem succeeds_check_bind_iff {x : Except ε Unit} {f : Unit → Except ε β} :
    Succeeds (x >>= f) ↔ x = .ok () ∧ Succeeds (f ()) := by
  rw [succeeds_bind_iff]
  constructor
  · intro ⟨(), hx, hf⟩
    exact ⟨hx, hf⟩
  · intro ⟨hx, hf⟩
    exact ⟨(), hx, hf⟩

theorem succeeds_gather_iff {f : α → Except ε (List β)} {l : List α} :
    Succeeds (gather f l) ↔ ∀ a ∈ l, Succeeds (f a) := by
  induction l with
  | nil => simp [gather, succeeds_ok]
  | cons a l ih =>
      rw [gather, succeeds_bind_iff, List.forall_mem_cons, ← ih]
      simp only [succeeds_bind_iff, succeeds_ok, and_true]
      constructor
      · intro ⟨bs, hbs, hl⟩
        exact ⟨⟨bs, hbs⟩, hl⟩
      · intro ⟨⟨bs, hbs⟩, hl⟩
        exact ⟨bs, hbs, hl⟩

@[simp] theorem orPanic_ok_iff {o : Option α} {a : α} :
    (orPanic o : Fallible ε α) = .ok a ↔ o = some a := by
  cases o <;> simp [orPanic]

theorem mem_of_gather {f : α → Except ε (List β)} {l : List α} {r : List β} {b : β}
    (h : gather f l = .ok r) (hb : b ∈ r) : ∃ a ∈ l, ∃ bs, f a = .ok bs ∧ b ∈ bs := by
  induction l generalizing r with
  | nil => cases h; cases hb
  | cons a l ih =>
      simp only [gather, bind_ok_iff, Except.ok.injEq] at h
      obtain ⟨bs, hbs, rest, hrest, rfl⟩ := h
      rcases List.mem_append.mp hb with hb | hb
      · exact ⟨a, by simp, bs, hbs, hb⟩
      · obtain ⟨a', ha', h'⟩ := ih hrest hb
        exact ⟨a', by simp [ha'], h'⟩

theorem mem_gather {f : α → Except ε (List β)} {l : List α} {r : List β} (h : gather f l = .ok r)
    {a : α} (ha : a ∈ l) : ∃ bs, f a = .ok bs ∧ ∀ b ∈ bs, b ∈ r := by
  induction l generalizing r with
  | nil => cases ha
  | cons x l ih =>
      simp only [gather, bind_ok_iff, Except.ok.injEq] at h
      obtain ⟨bs, hbs, rest, hrest, rfl⟩ := h
      rcases List.mem_cons.mp ha with rfl | ha
      · exact ⟨bs, hbs, fun b hb => List.mem_append_left _ hb⟩
      · obtain ⟨bs', hbs', hsub⟩ := ih hrest ha
        exact ⟨bs', hbs', fun b hb => List.mem_append_right _ (hsub b hb)⟩

/-- A list related to another has a member like each member of it. -/
theorem exists_of_forall₂ {P : α → β → Prop} {l : List α} {m : List β}
    (h : List.Forall₂ P l m) :
    (∀ a ∈ l, ∃ b ∈ m, P a b) ∧ ∀ b ∈ m, ∃ a ∈ l, P a b := by
  induction h with
  | nil => exact ⟨by simp, by simp⟩
  | cons hab _ ih =>
      refine ⟨List.forall_mem_cons.mpr ⟨⟨_, by simp, hab⟩, fun a ha => ?_⟩,
        List.forall_mem_cons.mpr ⟨⟨_, by simp, hab⟩, fun b hb => ?_⟩⟩
      · obtain ⟨b, hb, hp⟩ := ih.1 a ha
        exact ⟨b, List.mem_cons_of_mem _ hb, hp⟩
      · obtain ⟨a, ha, hp⟩ := ih.2 b hb
        exact ⟨a, List.mem_cons_of_mem _ ha, hp⟩

/-- A loop fails as its first failing step does. -/
theorem gather_error_iff {f : α → Except ε (List β)} {l : List α} {e : ε} :
    gather f l = .error e ↔
      ∃ l₁ a l₂, l = l₁ ++ a :: l₂ ∧ (∀ b ∈ l₁, ∃ bs, f b = .ok bs) ∧ f a = .error e := by
  induction l with
  | nil => simp [gather]
  | cons x l ih =>
      simp only [gather, bind_error_iff, ih, reduceCtorEq, and_false, exists_false, or_false]
      constructor
      · intro h
        rcases h with h | ⟨bs, hbs, l₁, a, l₂, rfl, hl₁, ha⟩
        · exact ⟨[], x, l, rfl, by simp, h⟩
        · exact ⟨x :: l₁, a, l₂, rfl, List.forall_mem_cons.mpr ⟨⟨bs, hbs⟩, hl₁⟩, ha⟩
      · intro ⟨l₁, a, l₂, hl, hl₁, ha⟩
        cases l₁ with
        | nil =>
            obtain ⟨rfl, rfl⟩ := List.cons.inj hl
            exact .inl ha
        | cons y l₁ =>
            obtain ⟨rfl, rfl⟩ := List.cons.inj hl
            obtain ⟨⟨bs, hbs⟩, hl₁⟩ := List.forall_mem_cons.mp hl₁
            exact .inr ⟨bs, hbs, l₁, a, l₂, rfl, hl₁, ha⟩

/-- An error that the call returns satisfies `P`. -/
def Raises (P : ε → Prop) (x : Except ε α) : Prop := ∀ e, x = .error e → P e

theorem raises_ok {P : ε → Prop} {a : α} : Raises P (.ok a) := nofun

theorem raises_error {P : ε → Prop} {e : ε} (h : P e) : Raises P (.error e : Except ε α) := by
  intro e' he; cases he; exact h

/-- The rule of sequence. -/
theorem Raises.bind {P : ε → Prop} {x : Except ε α} {f : α → Except ε β} (h : Raises P x)
    (hf : ∀ a, Raises P (f a)) : Raises P (x >>= f) := by
  cases x with
  | error e => exact raises_error (h e rfl)
  | ok a => exact hf a

theorem Raises.ite {P : ε → Prop} {c : Prop} [Decidable c] {x y : Except ε α} (hx : Raises P x)
    (hy : Raises P y) : Raises P (if c then x else y) := by
  split
  · exact hx
  · exact hy

theorem raises_ensure {P : ε → Prop} {p : Prop} [Decidable p] {e : ε} (h : P e) :
    Raises P (ensure p e) :=
  .ite raises_ok (raises_error h)

theorem raises_okOr {P : ε → Prop} {o : Option α} {e : ε} (h : P e) : Raises P (okOr o e) := by
  cases o with
  | some a => exact raises_ok
  | none => exact raises_error h

/-- The rules of loops. -/
theorem Raises.forM {P : ε → Prop} {f : α → Except ε Unit} (hf : ∀ a, Raises P (f a)) (l : List α) :
    Raises P (l.forM f) := by
  induction l with
  | nil => exact raises_ok
  | cons a l ih => exact (hf a).bind fun _ => ih

theorem Raises.gather {P : ε → Prop} {f : α → Except ε (List β)} (hf : ∀ a, Raises P (f a))
    (l : List α) : Raises P (gather f l) := by
  induction l with
  | nil => exact raises_ok
  | cons a l ih => exact (hf a).bind fun _ => ih.bind fun _ => raises_ok

section Effects

variable {σ : Type} {P : ε → Prop}

/-- The same of a call with a state, in every state. -/
def Effect.Raises (P : ε → Prop) (x : Effect σ ε α) : Prop :=
  ∀ st e st', x st = (.error e, st') → P e

theorem Effect.Raises.pure (a : α) : Effect.Raises P (Pure.pure a : Effect σ ε α) := by
  intro st e st' h
  cases h

theorem Effect.Raises.throw {e : ε} (he : P e) :
    Effect.Raises P (MonadExcept.throw e : Effect σ ε α) := by
  intro st e' st' h
  cases h
  exact he

theorem Effect.Raises.lift (x : StateM σ α) : Effect.Raises P (liftM x : Effect σ ε α) := by
  intro st e st' h
  cases h

theorem Effect.Raises.ofExcept {x : Except ε α} (hx : AgentVeil.Rust.Raises P x) :
    Effect.Raises P (Effect.ofExcept x : Effect σ ε α) := by
  intro st e st' h
  cases h
  exact hx e rfl

theorem Effect.Raises.okOr {o : Option α} {e : ε} (he : P e) :
    Effect.Raises P (Effect.okOr o e : Effect σ ε α) := by
  cases o with
  | some a => exact .pure a
  | none => exact .throw he

theorem Effect.Raises.bind {x : Effect σ ε α} {f : α → Effect σ ε β} (hx : Effect.Raises P x)
    (hf : ∀ a, Effect.Raises P (f a)) : Effect.Raises P (x >>= f) := by
  intro st e st' h
  rcases Effect.bind_error_iff.mp h with h | ⟨a, st₁, _, h⟩
  · exact hx _ _ _ h
  · exact hf a _ _ _ h

end Effects

/-- The call does not panic, and a value it returns satisfies `P`. -/
def Safe (P : α → Prop) (x : Fallible ε α) : Prop :=
  x ≠ .error .panic ∧ ∀ a, x = .ok a → P a

theorem safe_ok {P : α → Prop} {a : α} (h : P a) : Safe P (.ok a : Fallible ε α) :=
  ⟨nofun, fun _ ha => by cases ha; exact h⟩

theorem safe_err {P : α → Prop} {e : ε} : Safe P (err e : Fallible ε α) :=
  ⟨nofun, nofun⟩

theorem safe_orPanic {P : α → Prop} {o : Option α} {a : α} (ho : o = some a) (h : P a) :
    Safe P (orPanic o : Fallible ε α) := by
  subst ho; exact safe_ok h

theorem Safe.mono {P Q : α → Prop} {x : Fallible ε α} (h : Safe P x) (hpq : ∀ a, P a → Q a) :
    Safe Q x := ⟨h.1, fun a ha => hpq a (h.2 a ha)⟩

/-- The rule of sequence. -/
theorem Safe.bind {P : α → Prop} {Q : β → Prop} {x : Fallible ε α} {f : α → Fallible ε β}
    (h : Safe P x) (hf : ∀ a, P a → Safe Q (f a)) : Safe Q (x >>= f) := by
  cases x with
  | error e =>
      cases e with
      | err e => exact safe_err
      | panic => exact absurd rfl h.1
  | ok a => exact hf a (h.2 a rfl)

theorem Safe.map {P : α → Prop} {Q : β → Prop} {x : Fallible ε α} {f : α → β} (h : Safe P x)
    (hf : ∀ a, P a → Q (f a)) : Safe Q (x.map f) := by
  cases x with
  | error e =>
      cases e with
      | err e => exact safe_err
      | panic => exact absurd rfl h.1
  | ok a => exact safe_ok (hf a (h.2 a rfl))

/-- The rule of loops. -/
theorem Safe.gather {P : β → Prop} {f : α → Fallible ε (List β)} {l : List α}
    (h : ∀ a ∈ l, Safe (fun bs => ∀ b ∈ bs, P b) (f a)) :
    Safe (fun bs => ∀ b ∈ bs, P b) (gather f l) := by
  induction l with
  | nil => exact safe_ok (by simp)
  | cons a l ih =>
      rw [List.forall_mem_cons] at h
      refine h.1.bind fun bs hbs => (ih h.2).bind fun rest hrest => safe_ok fun b hb => ?_
      rcases List.mem_append.mp hb with hb | hb
      · exact hbs b hb
      · exact hrest b hb

end Fallible

/-! ## Sorting and selection -/

section Sorting

variable {α : Type}

/-- `sort_by_key`, with the comparison of the keys. -/
def sortBy (le : α → α → Bool) (l : List α) : List α := l.insertionSort fun a b => le a b = true

/-- `Iterator::max_by`: the last of the greatest elements. -/
def maxBy (le : α → α → Bool) : List α → Option α
  | [] => none
  | a :: l =>
      match maxBy le l with
      | none => some a
      | some b => if le a b then some b else some a

/-- `Iterator::min_by_key`: the first of the least elements. -/
def minByKey (key : α → Nat) : List α → Option α
  | [] => none
  | a :: l =>
      match minByKey key l with
      | none => some a
      | some b => if key a ≤ key b then some a else some b

/-- The rest of `Vec::dedup_by` after the retained element `prev`. -/
def dedupByFrom (same : α → α → Bool) (prev : α) : List α → List α
  | [] => []
  | a :: l => if same a prev then dedupByFrom same prev l else a :: dedupByFrom same a l

/-- `Vec::dedup_by`: an element equal to the one retained before it is dropped. -/
def dedupBy (same : α → α → Bool) : List α → List α
  | [] => []
  | a :: l => a :: dedupByFrom same a l

@[simp] theorem mem_sortBy {le : α → α → Bool} {l : List α} {a : α} :
    a ∈ sortBy le l ↔ a ∈ l := List.mem_insertionSort _

theorem perm_sortBy (le : α → α → Bool) (l : List α) : (sortBy le l).Perm l :=
  List.perm_insertionSort _ l

theorem pairwise_sortBy {le : α → α → Bool} (total : ∀ a b, le a b = true ∨ le b a = true)
    (trans : ∀ a b c, le a b = true → le b c = true → le a c = true) (l : List α) :
    (sortBy le l).Pairwise fun a b => le a b = true := by
  have : Std.Total fun a b => le a b = true := ⟨total⟩
  have : IsTrans α fun a b => le a b = true := ⟨trans⟩
  exact List.pairwise_insertionSort _ l

theorem maxBy_eq_none {le : α → α → Bool} {l : List α} (h : maxBy le l = none) : l = [] := by
  cases l with
  | nil => rfl
  | cons a l => simp only [maxBy] at h; split at h <;> (try split at h) <;> cases h

theorem mem_of_maxBy {le : α → α → Bool} {l : List α} {m : α} (h : maxBy le l = some m) :
    m ∈ l := by
  induction l generalizing m with
  | nil => cases h
  | cons a l ih =>
      simp only [maxBy] at h
      split at h
      · cases h; simp
      · rename_i b hb
        split at h <;> cases h
        · simp [ih hb]
        · simp

theorem le_maxBy {le : α → α → Bool} (total : ∀ a b, le a b = true ∨ le b a = true)
    (trans : ∀ a b c, le a b = true → le b c = true → le a c = true) {l : List α} {m : α}
    (h : maxBy le l = some m) : ∀ a ∈ l, le a m = true := by
  have refl : ∀ a, le a a = true := fun a => (total a a).elim id id
  induction l generalizing m with
  | nil => simp
  | cons x l ih =>
      intro a ha
      simp only [maxBy] at h
      split at h
      · rename_i hn
        cases h
        obtain rfl := maxBy_eq_none hn
        simp only [List.mem_singleton] at ha
        subst ha; exact refl a
      · rename_i b hb
        split at h <;> rename_i hle <;> cases h <;> rcases List.mem_cons.mp ha with rfl | ha
        · exact hle
        · exact ih hb a ha
        · exact refl a
        · exact trans _ _ _ (ih hb a ha) ((total b x).resolve_right hle)

theorem minByKey_eq_none {key : α → Nat} {l : List α} (h : minByKey key l = none) : l = [] := by
  cases l with
  | nil => rfl
  | cons a l => simp only [minByKey] at h; split at h <;> (try split at h) <;> cases h

theorem minByKey_spec {key : α → Nat} {l : List α} {m : α} (h : minByKey key l = some m) :
    m ∈ l ∧ ∀ a ∈ l, key m ≤ key a := by
  induction l generalizing m with
  | nil => cases h
  | cons x l ih =>
      simp only [minByKey] at h
      split at h
      · rename_i hn
        cases h
        obtain rfl := minByKey_eq_none hn
        simp
      · rename_i b hb
        obtain ⟨hmem, hmin⟩ := ih hb
        split at h <;> rename_i hle <;> cases h
        · refine ⟨by simp, fun a ha => ?_⟩
          rcases List.mem_cons.mp ha with rfl | ha
          · exact Nat.le_refl _
          · exact Nat.le_trans hle (hmin a ha)
        · refine ⟨by simp [hmem], fun a ha => ?_⟩
          rcases List.mem_cons.mp ha with rfl | ha
          · omega
          · exact hmin a ha

/-- The least element of an image. -/
theorem minByKey_map {β : Type} (key : β → Nat) (f : α → β) (l : List α) :
    minByKey key (l.map f) = (minByKey (fun a => key (f a)) l).map f := by
  induction l with
  | nil => rfl
  | cons a l ih =>
      simp only [List.map_cons, minByKey, ih]
      cases minByKey (fun a => key (f a)) l with
      | none => rfl
      | some b =>
          simp only [Option.map_some]
          split
          · rfl
          · rfl

theorem mem_of_mem_dedupByFrom {same : α → α → Bool} {p a : α} {l : List α}
    (h : a ∈ dedupByFrom same p l) : a ∈ l := by
  induction l generalizing p with
  | nil => exact h
  | cons x l ih =>
      simp only [dedupByFrom] at h
      split at h
      · exact List.mem_cons_of_mem _ (ih h)
      · rcases List.mem_cons.mp h with rfl | h
        · simp
        · exact List.mem_cons_of_mem _ (ih h)

theorem mem_of_mem_dedupBy {same : α → α → Bool} {a : α} {l : List α} (h : a ∈ dedupBy same l) :
    a ∈ l := by
  cases l with
  | nil => exact h
  | cons x l =>
      rcases List.mem_cons.mp h with rfl | h
      · simp
      · exact List.mem_cons_of_mem _ (mem_of_mem_dedupByFrom h)

/-- What `dedup_by` drops is equal to something it keeps. -/
theorem exists_mem_dedupByFrom {same : α → α → Bool} {p a : α} {l : List α} (h : a ∈ l) :
    ∃ b, (b = p ∨ b ∈ dedupByFrom same p l) ∧ (b = a ∨ same a b = true) := by
  induction l generalizing p with
  | nil => cases h
  | cons x l ih =>
      simp only [dedupByFrom]
      split
      · rename_i hs
        rcases List.mem_cons.mp h with rfl | h
        · exact ⟨p, .inl rfl, .inr hs⟩
        · exact ih h
      · rcases List.mem_cons.mp h with rfl | h
        · exact ⟨a, .inr (by simp), .inl rfl⟩
        · obtain ⟨b, hb, he⟩ := ih (p := x) h
          rcases hb with rfl | hb
          · exact ⟨b, .inr (by simp), he⟩
          · exact ⟨b, .inr (by simp [hb]), he⟩

theorem exists_mem_dedupBy {same : α → α → Bool} {a : α} {l : List α} (h : a ∈ l) :
    ∃ b ∈ dedupBy same l, b = a ∨ same a b = true := by
  cases l with
  | nil => cases h
  | cons x l =>
      rcases List.mem_cons.mp h with rfl | h
      · exact ⟨a, by simp [dedupBy], .inl rfl⟩
      · obtain ⟨b, hb, he⟩ := @exists_mem_dedupByFrom _ same x _ _ h
        exact ⟨b, by simpa [dedupBy] using hb, he⟩

end Sorting

/-! ## Hash maps -/

/-- `HashMap<κ, ν>`: its entries, and the order in which it iterates over them, which the keys alone
decide. -/
@[ext]
structure HashMap (κ ν : Type) where
  entries : List (κ × ν)
  order : List (κ × ν) → List (κ × ν)
  nodup : (entries.map Prod.fst).Nodup
  order_perm : ∀ l, (order l).Perm l
  order_keys : ∀ l l', l.map Prod.fst = l'.map Prod.fst →
    (order l).map Prod.fst = (order l').map Prod.fst

namespace HashMap

variable {κ ν : Type}

/-- An empty map that iterates in insertion order, the last entry first. -/
def empty : HashMap κ ν := ⟨[], id, by simp, fun _ => .refl _, fun _ _ h => h⟩

variable [DecidableEq κ]

/-- `HashMap::get`. -/
def get (m : HashMap κ ν) (k : κ) : Option ν := (m.entries.find? (·.1 = k)).map Prod.snd

/-- `HashMap::contains_key`. -/
def containsKey (m : HashMap κ ν) (k : κ) : Bool := (m.get k).isSome

/-- `HashMap::len`. -/
def size (m : HashMap κ ν) : Nat := m.entries.length

/-- `HashMap::iter`. -/
def iter (m : HashMap κ ν) : List (κ × ν) := m.order m.entries

/-- `HashMap::retain`. -/
def retain (m : HashMap κ ν) (p : κ → ν → Bool) : HashMap κ ν where
  entries := m.entries.filter fun e => p e.1 e.2
  order := m.order
  nodup := m.nodup.sublist (List.filter_sublist.map _)
  order_perm := m.order_perm
  order_keys := m.order_keys

/-- `HashMap::remove`. -/
def remove (m : HashMap κ ν) (k : κ) : HashMap κ ν := m.retain fun k' _ => k' ≠ k

/-- `HashMap::clear`. -/
def clear (m : HashMap κ ν) : HashMap κ ν := m.retain fun _ _ => false

/-- `HashMap::insert`. -/
def insert (m : HashMap κ ν) (k : κ) (v : ν) : HashMap κ ν where
  entries := (k, v) :: (m.remove k).entries
  order := m.order
  nodup := by
    refine List.nodup_cons.mpr ⟨?_, (m.remove k).nodup⟩
    simp [remove, retain]
  order_perm := m.order_perm
  order_keys := m.order_keys

/-- A write through `HashMap::get_mut`. -/
def modify (m : HashMap κ ν) (k : κ) (f : ν → ν) : HashMap κ ν where
  entries := m.entries.map fun e => if e.1 = k then (e.1, f e.2) else e
  order := m.order
  nodup := by
    have : (m.entries.map fun e => if e.1 = k then (e.1, f e.2) else e).map Prod.fst
        = m.entries.map Prod.fst := by
      rw [List.map_map]
      exact List.map_congr_left fun e _ => by simp only [Function.comp]; split <;> rfl
    rw [this]; exact m.nodup
  order_perm := m.order_perm
  order_keys := m.order_keys

/-- The map with a function applied to every value. -/
def mapValues (m : HashMap κ ν) (f : ν → ν) : HashMap κ ν where
  entries := m.entries.map fun e => (e.1, f e.2)
  order := m.order
  nodup := by rw [List.map_map]; exact m.nodup
  order_perm := m.order_perm
  order_keys := m.order_keys

omit [DecidableEq κ] in
theorem mem_iter {m : HashMap κ ν} {e : κ × ν} : e ∈ m.iter ↔ e ∈ m.entries :=
  (m.order_perm _).mem_iff

theorem find?_fst_of_mem {l : List (κ × ν)} (hl : (l.map Prod.fst).Nodup) {k : κ} {v : ν}
    (h : (k, v) ∈ l) : l.find? (·.1 = k) = some (k, v) := by
  induction l with
  | nil => cases h
  | cons e l ih =>
      simp only [List.map_cons, List.nodup_cons] at hl
      rcases List.mem_cons.mp h with rfl | h
      · simp
      · have hne : e.1 ≠ k := fun he => hl.1 (List.mem_map.mpr ⟨_, h, he.symm⟩)
        rw [List.find?_cons_of_neg (by simpa using hne), ih hl.2 h]

/-- A map holds a value under a key exactly when it has that entry. -/
theorem get_eq_some_iff {m : HashMap κ ν} {k : κ} {v : ν} :
    m.get k = some v ↔ (k, v) ∈ m.entries := by
  constructor
  · intro h
    obtain ⟨⟨k', v'⟩, hf, rfl⟩ := Option.map_eq_some_iff.mp h
    have hk := List.find?_some hf
    simp only [decide_eq_true_eq] at hk
    subst hk
    exact List.mem_of_find?_eq_some hf
  · intro h
    simp [get, find?_fst_of_mem m.nodup h]

theorem get_eq_of_mem_iff {m m' : HashMap κ ν} {k k' : κ}
    (h : ∀ v, (k, v) ∈ m.entries ↔ (k', v) ∈ m'.entries) : m.get k = m'.get k' :=
  Option.ext fun v => by rw [get_eq_some_iff, get_eq_some_iff, h]

@[simp] theorem get_retain (m : HashMap κ ν) (p : κ → ν → Bool) (k : κ) :
    (m.retain p).get k = (m.get k).filter (p k) := by
  ext v
  simp [get_eq_some_iff, retain, Option.filter_eq_some_iff]

theorem get_remove (m : HashMap κ ν) (k k' : κ) :
    (m.remove k).get k' = if k' = k then none else m.get k' := by
  rw [remove, get_retain]
  split <;> rename_i h <;> cases m.get k' <;> simp [h]

@[simp] theorem get_clear (m : HashMap κ ν) (k : κ) : m.clear.get k = none := by
  rw [clear, get_retain]; cases m.get k <;> rfl

theorem get_insert (m : HashMap κ ν) (k k' : κ) (v : ν) :
    (m.insert k v).get k' = if k' = k then some v else m.get k' := by
  split
  · rename_i h
    subst h
    exact get_eq_some_iff.mpr (by simp [insert])
  · rename_i h
    rw [← (get_remove m k k').trans (if_neg h)]
    exact get_eq_of_mem_iff fun w => by simp [insert, h]

theorem get_modify (m : HashMap κ ν) (k k' : κ) (f : ν → ν) :
    (m.modify k f).get k' = if k' = k then (m.get k').map f else m.get k' := by
  ext v
  rw [get_eq_some_iff]
  simp only [modify, List.mem_map]
  constructor
  · rintro ⟨⟨k₁, v₁⟩, hmem, he⟩
    have hget := get_eq_some_iff.mpr hmem
    split at he <;> rename_i h <;> simp only [Prod.mk.injEq] at he h <;> obtain ⟨rfl, rfl⟩ := he
    · rw [if_pos h, hget]; rfl
    · rw [if_neg h, hget]
  · intro h
    split at h
    · rename_i hk
      subst hk
      obtain ⟨w, hw, rfl⟩ := Option.map_eq_some_iff.mp h
      exact ⟨(k', w), get_eq_some_iff.mp hw, by simp⟩
    · rename_i hk
      exact ⟨(k', v), get_eq_some_iff.mp h, by simp [hk]⟩

@[simp] theorem size_modify (m : HashMap κ ν) (k : κ) (f : ν → ν) :
    (m.modify k f).size = m.size := by simp [modify, size]

theorem size_eq_of_get {m m' : HashMap κ ν} (h : ∀ k, m.get k = m'.get k) : m.size = m'.size := by
  refine List.Perm.length_eq ((List.perm_ext_iff_of_nodup ?_ ?_).mpr fun e => ?_)
  · exact m.nodup.of_map _
  · exact m'.nodup.of_map _
  · rw [← get_eq_some_iff, h, get_eq_some_iff]

/-- A map with at most the entries of another is no larger. -/
theorem size_le_of_get {m m' : HashMap κ ν} (h : ∀ k v, m.get k = some v → m'.get k = some v) :
    m.size ≤ m'.size :=
  (List.subperm_of_subset (List.Nodup.of_map _ m.nodup) fun e he =>
    get_eq_some_iff.mp (h e.1 e.2 (get_eq_some_iff.mpr he))).length_le

theorem size_remove_lt {m : HashMap κ ν} {k : κ} {v : ν} (h : m.get k = some v) :
    (m.remove k).size < m.size :=
  List.length_filter_lt_length_iff_exists.mpr ⟨(k, v), get_eq_some_iff.mp h, by simp⟩

omit [DecidableEq κ] in
theorem size_retain_le (m : HashMap κ ν) (p : κ → ν → Bool) : (m.retain p).size ≤ m.size :=
  List.length_filter_le _ _

omit [DecidableEq κ] in
@[simp] theorem size_clear (m : HashMap κ ν) : m.clear.size = 0 := by
  simp [clear, retain, size]

theorem size_insert_of_notMem (m : HashMap κ ν) {k : κ} (v : ν) (h : m.get k = none) :
    (m.insert k v).size = m.size + 1 := by
  have hk : ∀ a b, (a, b) ∈ m.entries → ¬a = k := by
    rintro a b hab rfl
    rw [get_eq_some_iff.mpr hab] at h
    cases h
  simpa [size, insert, remove, retain] using hk

/-! ### Maps over the values -/

omit [DecidableEq κ] in
/-- Entries with distinct keys are determined by the order of the keys. -/
theorem eq_of_perm_of_keys {l l' : List (κ × ν)} (hperm : l.Perm l')
    (hkeys : l.map Prod.fst = l'.map Prod.fst) (nodup : (l'.map Prod.fst).Nodup) : l = l' := by
  refine List.ext_getElem (by simpa using congrArg List.length hkeys) fun i hi hi' => ?_
  have hkey : l[i].1 = l'[i].1 := by
    have := congrArg (·[i]?) hkeys
    simpa [hi, hi'] using this
  exact List.inj_on_of_nodup_map nodup (hperm.mem_iff.mp (List.getElem_mem hi))
    (List.getElem_mem hi') hkey

omit [DecidableEq κ] in
/-- A map over the values does not change the order of the entries. -/
theorem iter_mapValues (m : HashMap κ ν) (f : ν → ν) :
    (m.mapValues f).iter = m.iter.map fun e => (e.1, f e.2) := by
  have hkeys : (m.mapValues f).entries.map Prod.fst = m.entries.map Prod.fst := by
    rw [mapValues, List.map_map]
    rfl
  have hiter : (m.iter.map fun e => (e.1, f e.2)).map Prod.fst = m.iter.map Prod.fst := by
    rw [List.map_map]
    rfl
  apply eq_of_perm_of_keys
  · exact ((m.mapValues f).order_perm _).trans ((m.order_perm _).map _).symm
  · rw [hiter]
    exact m.order_keys _ _ hkeys
  · rw [hiter]
    exact ((m.order_perm _).map _).nodup_iff.mpr m.nodup

omit [DecidableEq κ] in
theorem size_mapValues (m : HashMap κ ν) (f : ν → ν) : (m.mapValues f).size = m.size := by
  simp [size, mapValues]

theorem get_mapValues (m : HashMap κ ν) (f : ν → ν) (k : κ) :
    (m.mapValues f).get k = (m.get k).map f := by
  simp only [get, mapValues, List.find?_map, Option.map_map]
  rfl

theorem containsKey_mapValues (m : HashMap κ ν) (f : ν → ν) (k : κ) :
    (m.mapValues f).containsKey k = m.containsKey k := by
  simp [containsKey, get_mapValues]

omit [DecidableEq κ] in
theorem retain_mapValues {m : HashMap κ ν} {f : ν → ν} {p : κ → ν → Bool}
    (hp : ∀ k v, p k (f v) = p k v) : (m.mapValues f).retain p = (m.retain p).mapValues f := by
  refine HashMap.ext ?_ rfl
  simp only [retain, mapValues, List.filter_map, Function.comp_def, hp]

theorem remove_mapValues (m : HashMap κ ν) (f : ν → ν) (k : κ) :
    (m.mapValues f).remove k = (m.remove k).mapValues f := retain_mapValues fun _ _ => rfl

theorem insert_mapValues (m : HashMap κ ν) (f : ν → ν) (k : κ) (v : ν) :
    (m.mapValues f).insert k (f v) = (m.insert k v).mapValues f := by
  refine HashMap.ext ?_ rfl
  simp only [insert, remove_mapValues]
  rfl

theorem modify_mapValues {m : HashMap κ ν} {f g : ν → ν} (hg : ∀ v, g (f v) = f (g v)) (k : κ) :
    (m.mapValues f).modify k g = (m.modify k g).mapValues f := by
  refine HashMap.ext ?_ rfl
  simp only [modify, mapValues, List.map_map]
  refine List.map_congr_left fun e _ => ?_
  simp only [Function.comp_apply]
  split
  · rw [hg]
  · rfl

omit [DecidableEq κ] in
/-- A map that changes no value of the map. -/
theorem mapValues_eq_self {m : HashMap κ ν} {f : ν → ν} (h : ∀ e ∈ m.entries, f e.2 = e.2) :
    m.mapValues f = m := by
  refine HashMap.ext ?_ rfl
  have hid : ∀ e ∈ m.entries, (e.1, f e.2) = id e := fun e he => by rw [h e he, id]
  exact (List.map_congr_left hid).trans (List.map_id _)

end HashMap

end AgentVeil.Rust
