import AgentVeil.Payload.Targets

/-!
# What the collectors declare

`Declares base v rw ts`: the targets `ts` are string values of `v`, a value at the path `base`, each
at most once; they are rewritten exactly where `rw` holds, and every such string is among them.
-/

namespace AgentVeil

open Rust
open Rust.Value (asStr asBool asArray field hasField)

structure Declares (base : Path) (v : Value) (rw : Path → Prop) (ts : List TextTarget) : Prop where
  sound : ∀ t ∈ ts, t.literal = none ∧ ∃ q s, t.path = base ++ q ∧
    v.get? q = some (.string s) ∧ (t.mode = .rewrite ↔ rw q)
  nodup : (ts.map (·.path)).Nodup
  complete : ∀ q s, v.get? q = some (.string s) → rw q → ∃ t ∈ ts, t.path = base ++ q

/-- The targets declared below one segment. -/
def DeclaresAt (base : Path) (v : Value) (rw : Path → Prop) (seg : PathSegment)
    (ts : List TextTarget) : Prop :=
  match v.child? seg with
  | some c => Declares (base ++ [seg]) c (fun q => rw (seg :: q)) ts
  | none => ts = []

section Declares

variable {base : Path} {v : Value} {rw : Path → Prop}

theorem get?_string {s t : Str} {q : Path} (h : (Value.string s).get? q = some (.string t)) :
    q = [] := by
  cases q with
  | nil => rfl
  | cons seg q => simp [Value.get?, Value.child?] at h

theorem declares_string {s : Str} {fieldClass : FieldClass} {mode : RewriteMode}
    (hrw : mode = .rewrite ↔ rw []) :
    Declares base (.string s) rw [.new base fieldClass mode] := by
  refine ⟨?_, by simp, ?_⟩
  · intro t ht
    rw [List.mem_singleton.mp ht]
    exact ⟨rfl, [], s, by simp [TextTarget.new], rfl, hrw⟩
  · intro q t hq _
    exact ⟨_, List.mem_singleton.mpr rfl, by simp [TextTarget.new, get?_string hq]⟩

theorem declares_nil (hrw : ∀ q s, v.get? q = some (.string s) → ¬rw q) : Declares base v rw [] :=
  ⟨by simp, by simp, fun q s hq h => absurd h (hrw q s hq)⟩

/-- Targets below different segments, that cover what is rewritten. -/
theorem declares_of_segments {segs : List PathSegment} {tss : List (List TextTarget)}
    (hsegs : segs.Nodup) (h : List.Forall₂ (DeclaresAt base v rw) segs tss)
    (hcover : ∀ q s, v.get? q = some (.string s) → rw q → ∃ seg ∈ segs, q.head? = some seg) :
    Declares base v rw tss.flatten := by
  have all : (∀ t ∈ tss.flatten, t.literal = none ∧ ∃ seg ∈ segs, ∃ q s, t.path = base ++ seg :: q ∧
        v.get? (seg :: q) = some (.string s) ∧ (t.mode = .rewrite ↔ rw (seg :: q))) ∧
      (tss.flatten.map (·.path)).Nodup ∧
      ∀ seg ∈ segs, ∀ q s, v.get? (seg :: q) = some (.string s) → rw (seg :: q) →
        ∃ t ∈ tss.flatten, t.path = base ++ seg :: q := by
    clear hcover
    induction h with
    | nil => simp
    | @cons seg ts segs tss hseg _ ih =>
        obtain ⟨hnot, hsegs⟩ := List.nodup_cons.mp hsegs
        obtain ⟨sound, nodup, complete⟩ := ih hsegs
        cases hc : v.child? seg with
        | none =>
            simp only [DeclaresAt, hc] at hseg
            subst hseg
            refine ⟨fun t ht => ?_, by simpa using nodup, ?_⟩
            · obtain ⟨hl, seg', hs, rest⟩ := sound t (by simpa using ht)
              exact ⟨hl, seg', List.mem_cons_of_mem _ hs, rest⟩
            · intro seg' hs q s hq hr
              rcases List.mem_cons.mp hs with rfl | hs
              · simp [Value.get?, hc] at hq
              · simpa using complete seg' hs q s hq hr
        | some c =>
            simp only [DeclaresAt, hc] at hseg
            have below : ∀ t ∈ ts, ∃ q, t.path = base ++ seg :: q := fun t ht => by
              obtain ⟨_, q, _, hq, _⟩ := hseg.sound t ht
              exact ⟨q, by simpa using hq⟩
            refine ⟨?_, ?_, ?_⟩
            · intro t ht
              rw [List.flatten_cons] at ht
              rcases List.mem_append.mp ht with ht | ht
              · obtain ⟨hl, q, s, hq, hs, hm⟩ := hseg.sound t ht
                exact ⟨hl, seg, List.mem_cons_self, q, s, by simpa using hq,
                  by simpa [Value.get?, hc] using hs, hm⟩
              · obtain ⟨hl, seg', hs, rest⟩ := sound t ht
                exact ⟨hl, seg', List.mem_cons_of_mem _ hs, rest⟩
            · rw [List.flatten_cons, List.map_append]
              refine List.nodup_append.mpr ⟨hseg.nodup, nodup, ?_⟩
              rintro _ hp _ hp' rfl
              obtain ⟨t, ht, he⟩ := List.mem_map.mp hp
              obtain ⟨t', ht', he'⟩ := List.mem_map.mp hp'
              obtain ⟨q, hq⟩ := below t ht
              obtain ⟨_, seg', hs, q', _, hq', _⟩ := sound t' ht'
              have heq : base ++ seg :: q = base ++ seg' :: q' := by rw [← hq, ← hq', he, he']
              exact hnot ((List.cons.inj (List.append_cancel_left heq)).1 ▸ hs)
            · intro seg' hs q s hq hr
              rcases List.mem_cons.mp hs with rfl | hs
              · obtain ⟨t, ht, he⟩ := hseg.complete q s (by simpa [Value.get?, hc] using hq) hr
                exact ⟨t, by simp [ht], by simpa using he⟩
              · obtain ⟨t, ht, he⟩ := complete seg' hs q s hq hr
                exact ⟨t, List.mem_append_right _ ht, he⟩
  obtain ⟨sound, nodup, complete⟩ := all
  refine ⟨fun t ht => ?_, nodup, fun q s hq hr => ?_⟩
  · obtain ⟨hl, seg, _, q, s, rest⟩ := sound t ht
    exact ⟨hl, seg :: q, s, rest⟩
  · obtain ⟨seg, hs, hq'⟩ := hcover q s hq hr
    cases q with
    | nil => cases hq'
    | cons seg' q => cases hq'; exact complete seg hs q s hq hr

/-- Targets below one segment only. -/
theorem declares_of_segment {seg : PathSegment} {c : Value} {ts : List TextTarget}
    (hc : v.child? seg = some c)
    (h : Declares (base ++ [seg]) c (fun q => rw (seg :: q)) ts)
    (hcover : ∀ q s, v.get? q = some (.string s) → rw q → q.head? = some seg) :
    Declares base v rw ts := by
  have one : Declares base v rw [ts].flatten :=
    declares_of_segments (List.nodup_singleton seg)
      (.cons (by simpa [DeclaresAt, hc] using h) .nil)
      fun q s hq hr => ⟨seg, by simp, hcover q s hq hr⟩
  simpa using one

end Declares

/-! ## Blocked trees -/

theorem collectAllItems_eq (l : List Value) (i : Nat) (p : Path) (fieldClass : FieldClass) :
    collectAllItems l i p fieldClass
      = ((l.zipIdx i).map fun c => (PathSegment.index c.2, c.1)).flatMap
          fun c => collectAllStrings c.2 (p ++ [c.1]) fieldClass := by
  induction l generalizing i with
  | nil => rfl
  | cons v l ih => simp [collectAllItems, ih]

theorem collectAllFields_eq (o : Object) (p : Path) (fieldClass : FieldClass) :
    collectAllFields o p fieldClass
      = (o.map fun f => (PathSegment.key f.1, f.2)).flatMap
          fun c => collectAllStrings c.2 (p ++ [c.1]) fieldClass := by
  induction o with
  | nil => rfl
  | cons f o ih => obtain ⟨k, v⟩ := f; simp [collectAllFields, ih]

/-- The key that a tool string inherits through a segment. -/
def inheritKey (key : Option Str) : PathSegment → Option Str
  | .key k => some k
  | .index _ => key

theorem collectToolItems_eq (l : List Value) (i : Nat) (p : Path) (key : Option Str) :
    collectToolItems l i p key
      = ((l.zipIdx i).map fun c => (PathSegment.index c.2, c.1)).flatMap
          fun c => collectToolValue c.2 (p ++ [c.1]) (inheritKey key c.1) := by
  induction l generalizing i with
  | nil => rfl
  | cons v l ih => simp [collectToolItems, ih, inheritKey]

theorem collectToolFields_eq (o : Object) (p : Path) (key : Option Str) :
    collectToolFields o p
      = (o.map fun f => (PathSegment.key f.1, f.2)).flatMap
          fun c => collectToolValue c.2 (p ++ [c.1]) (inheritKey key c.1) := by
  induction o with
  | nil => rfl
  | cons f o ih => obtain ⟨k, v⟩ := f; simp [collectToolFields, ih, inheritKey]

/-- A tree whose children are all walked. -/
theorem declares_of_children {v : Value} (hv : v.Canonical) {base : Path} {rw : Path → Prop}
    {f : PathSegment × Value → List TextTarget} (hs : v.asStr = none)
    (h : ∀ c ∈ v.children, Declares (base ++ [c.1]) c.2 (fun q => rw (c.1 :: q)) (f c)) :
    Declares base v rw (v.children.flatMap f) := by
  rw [List.flatMap_def]
  refine declares_of_segments hv.nodup_children ?_ ?_
  · rw [List.forall₂_map_left_iff, List.forall₂_map_right_iff, List.forall₂_same]
    intro c hc
    simp only [DeclaresAt, hv.mem_children.mp hc]
    exact h c hc
  · intro q s hq _
    cases q with
    | nil =>
        simp only [Value.get?, Option.some.injEq] at hq
        subst hq
        cases hs
    | cons seg q =>
        simp only [Value.get?, Option.bind_eq_some_iff] at hq
        obtain ⟨c, hc, _⟩ := hq
        exact ⟨seg, List.mem_map.mpr ⟨(seg, c), hv.mem_children.mpr hc, rfl⟩, rfl⟩

theorem declares_collectAllStrings {v : Value} (hv : v.Canonical) {base : Path}
    {rw : Path → Prop} {fieldClass : FieldClass} (hrw : ∀ q, ¬rw q) :
    Declares base v rw (collectAllStrings v base fieldClass) := by
  induction v using Value.childInduction generalizing base rw with
  | h v ih =>
      cases v with
      | string s => exact declares_string (by simp [hrw])
      | array l =>
          rw [collectAllStrings, collectAllItems_eq]
          exact declares_of_children hv rfl fun c hc =>
            ih c hc (hv.of_mem_children hc) fun q => hrw _
      | object o =>
          rw [collectAllStrings, collectAllFields_eq]
          exact declares_of_children hv rfl fun c hc =>
            ih c hc (hv.of_mem_children hc) fun q => hrw _
      | _ => exact declares_nil fun q _ _ => hrw q

theorem declares_collectToolValue {v : Value} (hv : v.Canonical) {base : Path}
    {rw : Path → Prop} {key : Option Str} (hrw : ∀ q, ¬rw q) :
    Declares base v rw (collectToolValue v base key) := by
  induction v using Value.childInduction generalizing base rw key with
  | h v ih =>
      cases v with
      | string s =>
          simp only [collectToolValue]
          split
          · exact declares_nil fun q _ _ => hrw q
          · split
            · exact declares_string (by simp [hrw])
            · exact declares_string (by simp [hrw])
      | array l =>
          rw [collectToolValue, collectToolItems_eq]
          exact declares_of_children hv rfl fun c hc =>
            ih c hc (hv.of_mem_children hc) fun q => hrw _
      | object o =>
          rw [collectToolValue, collectToolFields_eq o base key]
          exact declares_of_children hv rfl fun c hc =>
            ih c hc (hv.of_mem_children hc) fun q => hrw _
      | _ => exact declares_nil fun q _ _ => hrw q

end AgentVeil
