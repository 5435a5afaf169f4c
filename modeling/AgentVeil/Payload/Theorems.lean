import AgentVeil.Payload.Lemmas.Items
import AgentVeil.Payload.Lemmas.Untracked
import AgentVeil.Rust.Utf8

/-!
# Theorems about the validated request
-/

namespace AgentVeil

open Rust
open Rust.Value (asStr asBool asArray asObject field hasField)

/-! ## Declared targets -/

section Declared

variable {root : Object} {ts : List TextTarget}

theorem declaresAt_of_field {rw : Path → Prop} {name : String} {ts : List TextTarget}
    (missing : field root name.toList = none → ts = [])
    (found : ∀ v, field root name.toList = some v →
      Declares [key name] v (fun q => rw (key name :: q)) ts) :
    DeclaresAt [] (.object root) rw (key name) ts := by
  have hchild : (Value.object root).child? (key name) = field root name.toList := rfl
  unfold DeclaresAt
  rw [hchild]
  split
  · exact found _ ‹_›
  · exact missing ‹_›

theorem rewriteLeaf_key_iff {v : Value} {name : String} {q : Path} :
    RewriteLeaf v (key name :: q) ↔
      (key name = key "instructions" ∧ q = []) ∨ (key name = key "input" ∧ q = []) ∨
      (key name = key "input" ∧ ∃ i item r, q = .index i :: r ∧
        v.get? [key "input", .index i] = some item ∧ ItemText item r) := by
  constructor
  · generalize hp : key name :: q = p
    intro h
    cases h with
    | instructions => exact .inl (List.cons.inj hp)
    | input => exact .inr (.inl (List.cons.inj hp))
    | item hi ht => exact .inr (.inr ⟨(List.cons.inj hp).1, _, _, _, (List.cons.inj hp).2, hi, ht⟩)
  · rintro (⟨h, rfl⟩ | ⟨h, rfl⟩ | ⟨h, i, item, r, rfl, hi, ht⟩)
    · rw [h]; exact .instructions
    · rw [h]; exact .input
    · rw [h]; exact .item hi ht

theorem declares_collectInstructions (h : collectInstructions root = .ok ts) :
    DeclaresAt [] (.object root) (RewriteLeaf (.object root)) (key "instructions") ts := by
  unfold collectInstructions at h
  refine declaresAt_of_field (fun hn => ?_) fun v hv => ?_
  · rw [hn] at h; cases h; rfl
  · simp only [hv, check_bind_ok_iff, ensure_ok_iff, Except.ok.injEq] at h
    obtain ⟨hs, rfl⟩ := h
    obtain ⟨s, rfl⟩ := isString_iff.mp hs
    exact declares_string (by simp [RewriteLeaf.instructions])

theorem declares_collectInput (hv : (Value.object root).Canonical)
    (h : collectInput root = .ok ts) :
    DeclaresAt [] (.object root) (RewriteLeaf (.object root)) (key "input") ts := by
  have hne : key "input" ≠ key "instructions" := by decide
  simp only [collectInput, bind_ok_iff, okOr_ok_iff] at h
  obtain ⟨input, hi, h⟩ := h
  refine declaresAt_of_field (fun hn => by rw [hn] at hi; cases hi) fun v hv' => ?_
  obtain rfl : input = v := Option.some.inj (hi.symm.trans hv')
  cases input with
  | string s => cases h; exact declares_string (by simp [RewriteLeaf.input])
  | array items =>
      obtain ⟨tss, htss, rfl⟩ := gather_ok_iff.mp h
      have hitems := canonical_field hv hi
      have hsegs : (items.zipIdx.map fun c => PathSegment.index c.2).Nodup := by
        have := hitems.nodup_children
        simpa [Value.children, List.map_map, Function.comp_def] using this
      refine declares_of_segments hsegs ?_ ?_
      · rw [List.forall₂_map_left_iff]
        refine forall₂_imp_of_mem htss fun c hc us hus => ?_
        obtain ⟨item, i⟩ := c
        have hitem : items[i]? = some item := by simpa using List.mk_mem_zipIdx_iff_getElem?.mp hc
        simp only [DeclaresAt, Value.child?, hitem]
        have hat : (Value.object root).get? [key "input", .index i] = some item := by
          have hchild : (Value.object root).child? (key "input") = some (.array items) := hi
          have hindex : (Value.array items).child? (.index i) = some item := hitem
          simp only [Value.get?, hchild, hindex, Option.bind_some]
        have hcanonical := hitems.of_mem_children (List.mem_map_of_mem hc)
        refine (declares_collectInputItem hcanonical hus).congr fun q => ?_
        rw [rewriteLeaf_key_iff]
        simp only [hne, reduceCtorEq, and_false, true_and, false_or, List.cons.injEq,
          PathSegment.index.injEq]
        constructor
        · intro ht; exact ⟨i, item, q, ⟨rfl, rfl⟩, hat, ht⟩
        · rintro ⟨i', item', q', ⟨rfl, rfl⟩, hat', ht⟩
          rw [hat, Option.some.injEq] at hat'
          rwa [hat']
      · intro q s hq _
        rcases q with _ | ⟨k | j, q⟩
        · simp [Value.get?] at hq
        · simp [Value.get?, Value.child?] at hq
        · simp only [Value.get?, Value.child?, Option.bind_eq_some_iff] at hq
          obtain ⟨c, hc, _⟩ := hq
          exact ⟨.index j, List.mem_map.mpr
            ⟨(c, j), List.mk_mem_zipIdx_iff_getElem?.mpr (by simpa using hc), rfl⟩, rfl⟩
  | _ => cases h

theorem declares_collectTools (hv : (Value.object root).Canonical)
    (h : collectTools root = .ok ts) :
    DeclaresAt [] (.object root) (RewriteLeaf (.object root)) (key "tools") ts := by
  have hne : key "tools" ≠ key "instructions" ∧ key "tools" ≠ key "input" := by decide
  unfold collectTools at h
  refine declaresAt_of_field (fun hn => ?_) fun v hv' => ?_
  · rw [hn] at h; cases h; rfl
  · rw [hv'] at h
    refine declares_collectToolArray (canonical_field hv hv') (fun q => ?_) h
    simp [rewriteLeaf_key_iff, hne]

theorem declares_collectClientMetadata (hv : (Value.object root).Canonical)
    (h : collectClientMetadata root = .ok ts) :
    DeclaresAt [] (.object root) (RewriteLeaf (.object root)) (key "client_metadata") ts := by
  have hne : key "client_metadata" ≠ key "instructions" ∧ key "client_metadata" ≠ key "input" := by
    decide
  unfold collectClientMetadata at h
  refine declaresAt_of_field (fun hn => ?_) fun v hv' => ?_
  · rw [hn] at h; cases h; rfl
  · simp only [hv', bind_ok_iff, okOr_ok_iff, asObject_eq_some] at h
    obtain ⟨o, rfl, h⟩ := h
    obtain ⟨tss, htss, rfl⟩ := gather_ok_iff.mp h
    have ho := canonical_field hv hv'
    have hrw : ∀ q, ¬RewriteLeaf (.object root) (key "client_metadata" :: q) := fun q => by
      simp [rewriteLeaf_key_iff, hne]
    refine declares_of_segments (show ((o.map Prod.fst).map PathSegment.key).Nodup from
      ho.nodup_keys.map fun _ _ h => by cases h; rfl) ?_ fun q _ _ hr => absurd hr (hrw q)
    rw [List.map_map, List.forall₂_map_left_iff]
    refine forall₂_imp_of_mem htss fun f hf us hus => ?_
    simp only [check_bind_ok_iff, ensure_ok_iff, Except.ok.injEq] at hus
    obtain ⟨hs, rfl⟩ := hus
    obtain ⟨s, hs⟩ := isString_iff.mp hs
    have hchild : (Value.object o).child? (.key f.1) = some (.string s) :=
      hs ▸ (Value.field_eq_some_iff ho.nodup_keys).mpr hf
    simp only [DeclaresAt, Function.comp_apply, hchild]
    exact declares_string (by simp [hrw])

theorem declares_collectDeclared (hv : (Value.object root).Canonical)
    (h : collectDeclared root = .ok ts) :
    Declares [] (.object root) (RewriteLeaf (.object root)) ts := by
  simp only [collectDeclared, bind_ok_iff, Except.ok.injEq] at h
  obtain ⟨instructions, h₁, input, h₂, tools, h₃, metadata, h₄, rfl⟩ := h
  have hall : Declares [] (.object root) (RewriteLeaf (.object root))
      [instructions, input, tools, metadata].flatten := by
    refine declares_of_segments (show [key "instructions", key "input", key "tools",
      key "client_metadata"].Nodup by decide)
      (.cons (declares_collectInstructions h₁) (.cons (declares_collectInput hv h₂)
        (.cons (declares_collectTools hv h₃) (.cons (declares_collectClientMetadata hv h₄) .nil))))
      fun q _ _ hr => ?_
    cases hr with
    | instructions => exact ⟨_, by simp, rfl⟩
    | input => exact ⟨key "input", by simp, rfl⟩
    | item => exact ⟨key "input", by simp, rfl⟩
  simpa using hall

end Declared

/-! ## Accepted requests -/

theorem ofValue_tracks {value : Value} {request : ValidatedRequest} (hv : value.Canonical)
    (h : ValidatedRequest.ofValue value = .ok request) : request.Tracks ∧ request.value = value := by
  simp only [ValidatedRequest.ofValue, bind_ok_iff, okOr_ok_iff, asObject_eq_some,
    Except.ok.injEq] at h
  obtain ⟨root, rfl, _, _, ts, hts, rfl⟩ := h
  have hd := declares_collectDeclared hv hts
  obtain ⟨new, hnew, hc⟩ := collectUntracked_completes hv (p := []) (.inr rfl) ts
  rw [hnew]
  have hplain : ts.filter (·.literal.isNone) = ts :=
    List.filter_eq_self.mpr fun t ht => by simp [(hd.sound t ht).1]
  have hnone : ts.filterMap (·.literal) = [] :=
    List.filterMap_eq_nil_iff.mpr fun t ht => (hd.sound t ht).1
  have hleaf : ∀ {p s}, (p, s) ∈ (Value.object root).leaves ↔
      (Value.object root).get? p = some (.string s) := hv.mem_leaves
  have hpaths : (new.filter (·.literal.isNone)).map (·.path)
      = ((Value.object root).leaves.map Prod.fst).filter (· ∉ ts.map (·.path)) := by
    simpa using hc.paths
  have hdeclared : ∀ p ∈ ts.map (·.path), p ∈ (Value.object root).leaves.map Prod.fst := by
    intro p hp
    obtain ⟨t, ht, rfl⟩ := List.mem_map.mp hp
    obtain ⟨_, q, s, hq, hs, _⟩ := hd.sound t ht
    exact List.mem_map.mpr ⟨(q, s), hleaf.mpr hs, by simpa using hq.symm⟩
  refine ⟨⟨hv, ?_, ?_, ?_, ?_⟩, rfl⟩
  · rw [ValidatedRequest.leafTargets, List.filter_append, hplain, List.map_append, hpaths]
    refine (List.perm_ext_iff_of_nodup ?_ hv.nodup_leaves).mpr fun p => ?_
    · refine List.nodup_append.mpr ⟨hd.nodup, hv.nodup_leaves.filter _, ?_⟩
      rintro p hp _ hp' rfl
      have := (List.mem_filter.mp hp').2
      simp only [decide_eq_true_eq] at this
      exact this hp
    · simp only [List.mem_append, List.mem_filter, decide_eq_true_eq]
      constructor
      · rintro (hp | hp)
        · exact hdeclared p hp
        · exact hp.1
      · intro hp
        by_cases hmem : p ∈ ts.map (·.path)
        · exact .inl hmem
        · exact .inr ⟨hp, hmem⟩
  · rw [ValidatedRequest.literals, List.filterMap_append, hnone, List.nil_append, hc.literals]
  · intro t ht hl
    rcases List.mem_append.mp ht with ht | ht
    · simp [(hd.sound t ht).1] at hl
    · exact hc.mode t ht
  · intro t ht
    obtain ⟨ht, hl⟩ := List.mem_filter.mp ht
    rcases List.mem_append.mp ht with ht | ht
    · obtain ⟨_, q, s, hq, _, hm⟩ := hd.sound t ht
      rw [hm, hq, List.nil_append]
    · rw [hc.mode t ht]
      simp only [reduceCtorEq, false_iff]
      intro hr
      have hmem : t.path ∈ (new.filter (·.literal.isNone)).map (·.path) :=
        List.mem_map_of_mem (List.mem_filter.mpr ⟨ht, hl⟩)
      rw [hpaths, List.mem_filter] at hmem
      obtain ⟨⟨q, s⟩, hq, he⟩ := List.mem_map.mp hmem.1
      obtain rfl : q = t.path := he
      obtain ⟨t', ht', he'⟩ := hd.complete _ s (hleaf.mp hq) hr
      have hfresh := hmem.2
      simp only [decide_eq_true_eq] at hfresh
      exact hfresh (List.mem_map.mpr ⟨t', ht', by simpa using he'⟩)

theorem parse_tracks {serde : SerdeJson} {bytes : List UInt8} {request : ValidatedRequest}
    (h : ValidatedRequest.parse serde bytes = .ok request) :
    request.Tracks ∧ (serde.fromSlice bytes).bind uniqueValue = some request.value := by
  simp only [ValidatedRequest.parse, bind_ok_iff, okOr_ok_iff] at h
  obtain ⟨value, hv, h⟩ := h
  obtain ⟨raw, _, hraw⟩ := Option.bind_eq_some_iff.mp hv
  obtain ⟨ht, rfl⟩ := ofValue_tracks (canonical_of_uniqueValue hraw) h
  exact ⟨ht, hv⟩

namespace ValidatedRequest.Tracks

variable {request : ValidatedRequest}

/-- A target that is no literal is a string value, and its text is that string. -/
theorem text_leaf (h : request.Tracks) {t : TextTarget} (ht : t ∈ request.leafTargets) :
    ∃ s, (t.path, s) ∈ request.value.leaves ∧ request.text t = .ok s := by
  have hmem : t.path ∈ request.value.leaves.map Prod.fst :=
    h.paths.mem_iff.mp (List.mem_map_of_mem ht)
  obtain ⟨⟨p, s⟩, hp, he⟩ := List.mem_map.mp hmem
  obtain rfl : p = t.path := he
  have hnone : t.literal = none := by simpa using (List.mem_filter.mp ht).2
  have hget := h.canonical.mem_leaves.mp hp
  refine ⟨s, hp, ?_⟩
  rw [text, hnone]
  simp only [locate, hget, okOr, bind, Except.bind, Value.asStr]

/-- Every target has a text. -/
theorem text_ok (h : request.Tracks) {t : TextTarget} (ht : t ∈ request.targets) :
    ∃ s, request.text t = .ok s := by
  cases hl : t.literal with
  | some k => exact ⟨k, by rw [text, hl]⟩
  | none =>
      obtain ⟨s, _, hs⟩ := h.text_leaf (t := t) (List.mem_filter.mpr ⟨ht, by simp [hl]⟩)
      exact ⟨s, hs⟩

end ValidatedRequest.Tracks

/-- Every accepted string is a target exactly once. The targets that are no literals are the string
values of the accepted tree, one for each path, with its content as their text; the literals are the
key occurrences, all `BlockOnly`; and a string value is rewritten exactly at the declared places. -/
theorem parse_targets {serde : SerdeJson} {bytes : List UInt8} {request : ValidatedRequest}
    (h : ValidatedRequest.parse serde bytes = .ok request) :
    (serde.fromSlice bytes).bind uniqueValue = some request.value ∧
    (request.value.leaves.map Prod.fst).Nodup ∧
    (request.leafTargets.map (·.path)).Perm (request.value.leaves.map Prod.fst) ∧
    (∀ t ∈ request.leafTargets, ∀ s, (t.path, s) ∈ request.value.leaves →
      request.text t = .ok s) ∧
    request.literals.Perm request.value.keys ∧
    (∀ t ∈ request.targets, ∀ k, t.literal = some k →
      t.mode = .blockOnly ∧ request.text t = .ok k) ∧
    (∀ t ∈ request.leafTargets, t.mode = .rewrite ↔ RewriteLeaf request.value t.path) := by
  obtain ⟨ht, hv⟩ := parse_tracks h
  refine ⟨hv, ht.canonical.nodup_leaves, ht.paths, ?_, ht.literals, ?_, ht.mode⟩
  · intro t hmem s hs
    obtain ⟨s', hs', htext⟩ := ht.text_leaf hmem
    have := (ht.canonical.mem_leaves.mp hs).symm.trans (ht.canonical.mem_leaves.mp hs')
    simp only [Option.some.injEq, Value.string.injEq] at this
    rw [this, htext]
  · intro t hmem k hk
    exact ⟨ht.literal_mode t hmem (by simp [hk]), by rw [ValidatedRequest.text, hk]⟩

/-- A request whose input is one string. -/
def demoValue (input : Str) : Value :=
  .object [("input".toList, .string input), ("model".toList, .string "m".toList),
    ("parallel_tool_calls".toList, .bool true), ("store".toList, .bool false),
    ("stream".toList, .bool true), ("tool_choice".toList, .string "auto".toList)]

/-- Its bytes, for an input that needs no escapes. -/
def demoBody (input : Str) : List UInt8 :=
  bytes ("\x7b\"input\":\"".toList ++ input ++ "\",\"model\":\"m\",".toList ++
    "\"parallel_tool_calls".toList ++ "\":true,\"store\":".toList ++ "false,\"stream\":".toList ++
    "true,\"tool_choice".toList ++ "\":\"auto\"\x7d".toList)

def demoSerde : SerdeJson :=
  .ofTable [(demoBody "hello".toList, demoValue "hello".toList)] (by simp)

theorem parse_targets_demo : ∃ request,
    ValidatedRequest.parse demoSerde (demoBody "hello".toList) = .ok request ∧
      request.literals.Perm request.value.keys := by
  have hok : (ValidatedRequest.parse demoSerde (demoBody "hello".toList)).toOption.isSome = true := by
    decide
  cases h : ValidatedRequest.parse demoSerde (demoBody "hello".toList) with
  | error e => rw [h] at hok; cases hok
  | ok request => exact ⟨request, rfl, (parse_targets h).2.2.2.2.1⟩

end AgentVeil
