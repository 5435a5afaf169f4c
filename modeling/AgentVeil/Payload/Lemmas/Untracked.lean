import AgentVeil.Payload

/-!
# The accepted value and the final pass over it

A parsed value is canonical. The final pass adds one target for every string that has none, and one
for every key.
-/

namespace AgentVeil

open Rust

/-! ## Parsed values -/

theorem canonical_visitSeq {l : List Raw} {vs : List Value}
    (ih : ∀ r ∈ l, ∀ v, uniqueValue r = some v → v.Canonical) (h : visitSeq l = some vs) :
    ∀ v ∈ vs, v.Canonical := by
  induction l generalizing vs with
  | nil => cases h; simp
  | cons r l ihl =>
      rw [List.forall_mem_cons] at ih
      simp only [visitSeq, Option.bind_eq_bind, Option.bind_eq_some_iff, Option.some.injEq] at h
      obtain ⟨v, hv, ws, hws, rfl⟩ := h
      exact List.forall_mem_cons.mpr ⟨ih.1 v hv, ihl ih.2 hws⟩

theorem canonical_visitMap {l : List (Str × Raw)} {ks : List Str} {o o' : Object}
    (ih : ∀ f ∈ l, ∀ v, uniqueValue f.2 = some v → v.Canonical) (ho : (Value.object o).Canonical)
    (hks : ∀ k ∈ o.map Prod.fst, k ∈ ks) (h : visitMap ks o l = some o') :
    (Value.object o').Canonical := by
  induction l generalizing ks o with
  | nil => cases h; exact ho
  | cons f l ihl =>
      obtain ⟨k, raw⟩ := f
      rw [List.forall_mem_cons] at ih
      simp only [visitMap] at h
      split at h
      · cases h
      rename_i hk
      simp only [Option.bind_eq_bind, Option.bind_eq_some_iff] at h
      obtain ⟨v, hv, h⟩ := h
      cases ho with
      | object sorted hall =>
          refine ihl ih.2 (.object (Value.sorted_insert sorted fun hm => hk (hks k hm)) ?_) ?_ h
          · intro g hg
            rcases (List.mem_orderedInsert _).mp hg with rfl | hg
            · exact ih.1 v hv
            · exact hall g hg
          · intro j hj
            obtain ⟨g, hg, rfl⟩ := List.mem_map.mp hj
            rcases (List.mem_orderedInsert _).mp hg with rfl | hg
            · exact List.mem_cons_self
            · exact List.mem_cons_of_mem _ (hks _ (List.mem_map_of_mem hg))

theorem canonical_of_uniqueValue {raw : Raw} {v : Value} (h : uniqueValue raw = some v) :
    v.Canonical := by
  induction raw using Raw.induction generalizing v with
  | unit => cases h; exact .null
  | bool b => cases h; exact .bool b
  | i64 n =>
      cases h
      split
      · exact .number ‹_›
      · exact .number trivial
  | u64 n => cases h; exact .number trivial
  | f64 bits =>
      simp only [uniqueValue] at h
      split at h
      · cases h; exact .number ‹_›
      · cases h
  | str s => cases h; exact .string s
  | seq l ih =>
      obtain ⟨vs, hvs, rfl⟩ := Option.map_eq_some_iff.mp h
      exact .array (canonical_visitSeq (fun r hr v hv => ih r hr hv) hvs)
  | map o ih =>
      obtain ⟨o', ho', rfl⟩ := Option.map_eq_some_iff.mp h
      exact canonical_visitMap (fun f hf v hv => ih f hf hv) (.object .nil (by simp)) (by simp) ho'

/-! ## The final pass -/

/-- The target for a key, if the segment is one. -/
def keyTargets : PathSegment → List TextTarget
  | .key k => [.structuralLiteral k]
  | .index _ => []

theorem collectUntrackedItems_eq (l : List Value) (i : Nat) (p : Path) (ts : List TextTarget) :
    collectUntrackedItems l i p ts
      = ((l.zipIdx i).map fun c => (PathSegment.index c.2, c.1)).foldl
          (fun ts c => collectUntracked c.2 (p ++ [c.1]) (ts ++ keyTargets c.1)) ts := by
  induction l generalizing i ts with
  | nil => rfl
  | cons v l ih => simp [collectUntrackedItems, ih, keyTargets]

theorem collectUntrackedFields_eq (o : Object) (p : Path) (ts : List TextTarget) :
    collectUntrackedFields o p ts
      = (o.map fun f => (PathSegment.key f.1, f.2)).foldl
          (fun ts c => collectUntracked c.2 (p ++ [c.1]) (ts ++ keyTargets c.1)) ts := by
  induction o generalizing ts with
  | nil => rfl
  | cons f o ih => obtain ⟨k, v⟩ := f; simp [collectUntrackedFields, ih, keyTargets]

/-- What the final pass does below a value that is not a string. -/
theorem collectUntracked_eq {v : Value} (hv : v.asStr = none) (p : Path) (ts : List TextTarget) :
    collectUntracked v p ts
      = v.children.foldl
          (fun ts c => collectUntracked c.2 (p ++ [c.1]) (ts ++ keyTargets c.1)) ts := by
  cases v with
  | string s => cases hv
  | array l => exact collectUntrackedItems_eq l 0 p ts
  | object o => exact collectUntrackedFields_eq o p ts
  | _ => rfl

/-- The targets `new` that complete `seen` below `p`: the strings of `v` not seen yet, and its
keys. -/
structure Completes (v : Value) (p : Path) (seen : List Path) (new : List TextTarget) : Prop where
  literals : new.filterMap (·.literal) = v.keys
  paths : (new.filter (·.literal.isNone)).map (·.path)
    = (v.leaves.map (p ++ ·.1)).filter (· ∉ seen)
  literalPath : ∀ t ∈ new, t.literal.isSome = true → t.path = []
  mode : ∀ t ∈ new, t.mode = .blockOnly

theorem keysItems_eq (l : List Value) (i : Nat) :
    Value.keysItems l = ((l.zipIdx i).map fun c => (PathSegment.index c.2, c.1)).flatMap
      fun c => (keyTargets c.1).filterMap (·.literal) ++ c.2.keys := by
  induction l generalizing i with
  | nil => rfl
  | cons v l ih => simp [Value.keysItems, ih (i + 1), keyTargets]

theorem keysFields_eq (o : Object) :
    Value.keysFields o = (o.map fun f => (PathSegment.key f.1, f.2)).flatMap
      fun c => (keyTargets c.1).filterMap (·.literal) ++ c.2.keys := by
  induction o with
  | nil => rfl
  | cons f o ih =>
      obtain ⟨k, v⟩ := f
      simp [Value.keysFields, ih, keyTargets, TextTarget.structuralLiteral]

theorem keys_eq (v : Value) : v.keys
    = v.children.flatMap fun c => (keyTargets c.1).filterMap (·.literal) ++ c.2.keys := by
  cases v with
  | array l => exact keysItems_eq l 0
  | object o => exact keysFields_eq o
  | _ => rfl

/-- The strings below `p` in a list of children. -/
def leafPaths (p : Path) (cs : List (PathSegment × Value)) : List Path :=
  cs.flatMap fun c => c.2.leaves.map fun l => p ++ c.1 :: l.1

theorem leaves_of_asStr_eq_none {v : Value} (hv : v.asStr = none) (p : Path) :
    v.leaves.map (p ++ ·.1) = leafPaths p v.children := by
  rw [Value.leaves_eq, hv]
  simp [leafPaths, List.map_flatMap, Function.comp_def]

/-- The final pass over a list of children with different segments. -/
theorem foldl_completes {p : Path} {cs : List (PathSegment × Value)}
    (hcs : (cs.map Prod.fst).Nodup)
    (ih : ∀ c ∈ cs, ∀ ts, ∃ new, collectUntracked c.2 (p ++ [c.1]) ts = ts ++ new ∧
      Completes c.2 (p ++ [c.1]) (ts.map (·.path)) new) (ts : List TextTarget) :
    ∃ new, cs.foldl (fun ts c => collectUntracked c.2 (p ++ [c.1]) (ts ++ keyTargets c.1)) ts
        = ts ++ new ∧
      new.filterMap (·.literal)
        = cs.flatMap (fun c => (keyTargets c.1).filterMap (·.literal) ++ c.2.keys) ∧
      (new.filter (·.literal.isNone)).map (·.path)
        = (leafPaths p cs).filter (· ∉ ts.map (·.path)) ∧
      (∀ t ∈ new, t.literal.isSome = true → t.path = []) ∧ ∀ t ∈ new, t.mode = .blockOnly := by
  induction cs generalizing ts with
  | nil => exact ⟨[], by simp [leafPaths]⟩
  | cons c cs ihc =>
      rw [List.map_cons, List.nodup_cons] at hcs
      rw [List.forall_mem_cons] at ih
      obtain ⟨new₁, h₁, hc⟩ := ih.1 (ts ++ keyTargets c.1)
      obtain ⟨new₂, h₂, hlit, hpaths, hpath, hmode⟩ :=
        ihc hcs.2 ih.2 ((ts ++ keyTargets c.1) ++ new₁)
      have hkeys : ∀ t ∈ keyTargets c.1,
          t.literal.isNone = false ∧ t.path = [] ∧ t.mode = .blockOnly := by
        cases c.1 <;> simp [keyTargets, TextTarget.structuralLiteral]
      have hkeysNone : (keyTargets c.1).filter (·.literal.isNone) = [] :=
        List.filter_eq_nil_iff.mpr fun t ht => by simp [(hkeys t ht).1]
      -- what the first child adds is at no path below another child
      have hnew₁ : ∀ t ∈ keyTargets c.1 ++ new₁, t.path = [] ∨ ∃ q, t.path = p ++ c.1 :: q := by
        intro t ht
        rcases List.mem_append.mp ht with ht | ht
        · exact .inl (hkeys t ht).2.1
        · by_cases hl : t.literal.isSome = true
          · exact .inl (hc.literalPath t ht hl)
          · have hmem : t.path ∈ (new₁.filter (·.literal.isNone)).map (·.path) :=
              List.mem_map.mpr ⟨t, List.mem_filter.mpr ⟨ht, by simpa using hl⟩, rfl⟩
            rw [hc.paths] at hmem
            obtain ⟨l, _, hl⟩ := List.mem_map.mp (List.mem_filter.mp hmem).1
            exact .inr ⟨l.1, by rw [← hl]; simp⟩
      have hfirst : (c.2.leaves.map (p ++ [c.1] ++ ·.1)).filter
            (· ∉ (ts ++ keyTargets c.1).map (·.path))
          = (c.2.leaves.map fun l => p ++ c.1 :: l.1).filter (· ∉ ts.map (·.path)) := by
        simp only [List.append_assoc, List.singleton_append]
        refine List.filter_congr fun q hq => ?_
        obtain ⟨l, _, rfl⟩ := List.mem_map.mp hq
        simp only [List.map_append, List.mem_append, not_or, decide_eq_decide]
        refine ⟨fun h => h.1, fun h => ⟨h, fun hm => ?_⟩⟩
        obtain ⟨t, ht, he⟩ := List.mem_map.mp hm
        rw [(hkeys t ht).2.1] at he
        simp at he
      have hrest : (leafPaths p cs).filter (· ∉ (ts ++ keyTargets c.1 ++ new₁).map (·.path))
          = (leafPaths p cs).filter (· ∉ ts.map (·.path)) := by
        refine List.filter_congr fun q hq => ?_
        obtain ⟨d, hd, hq⟩ := List.mem_flatMap.mp hq
        obtain ⟨l, _, rfl⟩ := List.mem_map.mp hq
        rw [List.append_assoc, List.map_append]
        simp only [List.mem_append, not_or, decide_eq_decide]
        refine ⟨fun h => h.1, fun h => ⟨h, fun hm => ?_⟩⟩
        obtain ⟨t, ht, he⟩ := List.mem_map.mp hm
        rcases hnew₁ t ht with h₀ | ⟨q, h₀⟩
        · rw [h₀] at he; simp at he
        · rw [h₀] at he
          have hseg : c.1 = d.1 := (List.cons.inj (List.append_cancel_left he)).1
          exact hcs.1 (hseg ▸ List.mem_map_of_mem hd)
      refine ⟨keyTargets c.1 ++ new₁ ++ new₂, ?_, ?_, ?_, ?_, ?_⟩
      · rw [List.foldl_cons, h₁, h₂]; simp
      · simp [hlit, hc.literals]
      · rw [List.filter_append, List.filter_append, hkeysNone, List.nil_append, List.map_append,
          hc.paths, hpaths, hfirst, hrest, ← List.filter_append]
        rfl
      · intro t ht hl
        rcases List.mem_append.mp ht with ht | ht
        · rcases List.mem_append.mp ht with ht | ht
          · exact (hkeys t ht).2.1
          · exact hc.literalPath t ht hl
        · exact hpath t ht hl
      · intro t ht
        rcases List.mem_append.mp ht with ht | ht
        · rcases List.mem_append.mp ht with ht | ht
          · exact (hkeys t ht).2.2
          · exact hc.mode t ht
        · exact hmode t ht

theorem collectUntracked_completes {v : Value} (hv : v.Canonical) {p : Path}
    (hp : p ≠ [] ∨ v.asStr = none) (ts : List TextTarget) :
    ∃ new, collectUntracked v p ts = ts ++ new ∧ Completes v p (ts.map (·.path)) new := by
  induction v using Value.childInduction generalizing p ts with
  | h v ih =>
      cases hs : v.asStr with
      | some s =>
          obtain rfl : v = .string s := by cases v <;> simp_all [Value.asStr]
          by_cases hseen : p ∈ ts.map (·.path)
          · have hany : (ts.any fun t => t.path = p) = true := by
              obtain ⟨t, ht, rfl⟩ := List.mem_map.mp hseen
              exact List.any_eq_true.mpr ⟨t, ht, by simp⟩
            exact ⟨[], by simp only [collectUntracked, hany, ↓reduceIte, List.append_nil],
              rfl, by simpa [Value.leaves] using hseen, by simp, by simp⟩
          · have hany : (ts.any fun t => t.path = p) = false := by
              refine Bool.eq_false_iff.mpr fun h => hseen ?_
              obtain ⟨t, ht, he⟩ := List.any_eq_true.mp h
              exact List.mem_map.mpr ⟨t, ht, by simpa using he⟩
            have hall : ∀ t ∈ ts, ¬t.path = p := fun t ht he =>
              hseen (List.mem_map.mpr ⟨t, ht, he⟩)
            exact ⟨[.new p .structuralMetadata .blockOnly], by simp [collectUntracked, hany],
              rfl, by simp +contextual [Value.leaves, TextTarget.new, hall],
              by simp [TextTarget.new], by simp [TextTarget.new]⟩
      | none =>
          obtain ⟨new, hnew, hlit, hpaths, hpath, hmode⟩ :=
            foldl_completes hv.nodup_children
              (fun c hc ts => ih c hc (hv.of_mem_children hc) (.inl (by simp)) ts) ts
          refine ⟨new, (collectUntracked_eq hs p ts).trans hnew, ?_, ?_, hpath, hmode⟩
          · rw [hlit, keys_eq]
          · rw [hpaths, leaves_of_asStr_eq_none hs]

end AgentVeil
