import AgentVeil.Rust.Collections
import AgentVeil.Rust.Text
import Mathlib.Order.MinMax

/-!
# Relocation

A text may be read from another one with parts left out. The offsets of its bytes there are strictly
monotone, and a range goes to the range from its first byte to its last.
-/

namespace AgentVeil.Rust

/-! ## Offsets and ranges -/

section Offsets

variable {place : Nat → Nat}

/-- Where a range up to `n` ends, when byte `n` is at `place n`. -/
def placeEnd (place : Nat → Nat) : Nat → Nat
  | 0 => 0
  | n + 1 => place n + 1

def Span.relocate (place : Nat → Nat) (span : Span) : Span :=
  ⟨place span.start, placeEnd place span.stop⟩

theorem placeEnd_le_iff (mono : StrictMono place) {a b : Nat} :
    placeEnd place b ≤ place a ↔ b ≤ a := by
  cases b with
  | zero => simp [placeEnd]
  | succ b => exact mono.lt_iff_lt

theorem strictMono_placeEnd (mono : StrictMono place) : StrictMono (placeEnd place) := by
  intro a b hab
  cases b with
  | zero => exact absurd hab (Nat.not_lt_zero a)
  | succ b =>
      cases a with
      | zero => exact Nat.succ_pos _
      | succ a => exact Nat.succ_lt_succ (mono (Nat.lt_of_succ_lt_succ hab))

theorem Span.relocate_injective (mono : StrictMono place) :
    Function.Injective (Span.relocate place) := by
  rintro ⟨a, b⟩ ⟨c, d⟩ h
  obtain ⟨hstart, hstop⟩ := Span.mk.inj h
  obtain rfl := mono.injective hstart
  obtain rfl := (strictMono_placeEnd mono).injective hstop
  rfl

theorem min?_map {f : Nat → Nat} (hf : Monotone f) (l : List Nat) :
    (l.map f).min? = l.min?.map f := by
  cases l with
  | nil => rfl
  | cons a l =>
      rw [List.map_cons, List.min?_cons', List.min?_cons', List.foldl_map, Option.map_some]
      exact congrArg some (List.foldl_hom f fun x y => (hf.map_min).symm)

theorem max?_map {f : Nat → Nat} (hf : Monotone f) (l : List Nat) :
    (l.map f).max? = l.max?.map f := by
  cases l with
  | nil => rfl
  | cons a l =>
      rw [List.map_cons, List.max?_cons', List.max?_cons', List.foldl_map, Option.map_some]
      exact congrArg some (List.foldl_hom f fun x y => (hf.map_max).symm)

end Offsets

/-! ## Calls on relocated values -/

section Calls

variable {ε α α' β β' : Type}

/-- A sequence of calls gives a mapped value when each of its calls does. -/
theorem map_bind_map {x : Except ε α} {p : α → α'} {f : α → Except ε β} {f' : α' → Except ε β'}
    {k : β → β'} (h : ∀ a, f' (p a) = (f a).map k) : (x.map p >>= f') = (x >>= f).map k := by
  cases x with
  | error e => rfl
  | ok a => exact h a

theorem bind_map {x : Except ε α} {f : α → Except ε β} {f' : α → Except ε β'} {k : β → β'}
    (h : ∀ a, f' a = (f a).map k) : (x >>= f') = (x >>= f).map k := by
  cases x with
  | error e => rfl
  | ok a => exact h a

theorem gather_map {f : α → Except ε (List β)} {f' : α' → Except ε (List β')} {p : α → α'}
    {k : β → β'} (h : ∀ a, f' (p a) = (f a).map (List.map k)) (l : List α) :
    gather f' (l.map p) = (gather f l).map (List.map k) := by
  induction l with
  | nil => rfl
  | cons a l ih =>
      rw [List.map_cons, gather, gather, h a, ih]
      refine map_bind_map fun bs => map_bind_map fun rest => ?_
      rw [← List.map_append]
      rfl

/-- The same of a loop over the same list. -/
theorem gather_map_id {f : α → Except ε (List β)} {f' : α → Except ε (List β')} {k : β → β'}
    (h : ∀ a, f' a = (f a).map (List.map k)) (l : List α) :
    gather f' l = (gather f l).map (List.map k) := by
  have hmap := gather_map (p := id) h l
  rwa [List.map_id] at hmap

end Calls

/-! ## Sorting -/

section Sorting

variable {α β : Type} {f : α → β}

theorem sortBy_map {le : α → α → Bool} {le' : β → β → Bool} (h : ∀ a b, le' (f a) (f b) = le a b)
    (l : List α) : sortBy le' (l.map f) = (sortBy le l).map f :=
  (List.map_insertionSort _ (fun a b => le' a b = true) f l fun a _ b _ => by rw [h]).symm

theorem dedupByFrom_map {same : α → α → Bool} {same' : β → β → Bool}
    (h : ∀ a b, same' (f a) (f b) = same a b) (prev : α) (l : List α) :
    dedupByFrom same' (f prev) (l.map f) = (dedupByFrom same prev l).map f := by
  induction l generalizing prev with
  | nil => rfl
  | cons a l ih =>
      rw [List.map_cons, dedupByFrom, dedupByFrom, h, ih, ih]
      split
      · rfl
      · rfl

theorem dedupBy_map {same : α → α → Bool} {same' : β → β → Bool}
    (h : ∀ a b, same' (f a) (f b) = same a b) (l : List α) :
    dedupBy same' (l.map f) = (dedupBy same l).map f := by
  cases l with
  | nil => rfl
  | cons a l => rw [List.map_cons, dedupBy, dedupBy, dedupByFrom_map h, List.map_cons]

end Sorting

end AgentVeil.Rust
