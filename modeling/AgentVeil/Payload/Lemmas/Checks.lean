import AgentVeil.Payload.Lemmas.Items
import AgentVeil.Payload.Shapes

/-!
# The checks as shapes

Every check of the parser is a statement about the shape of some fields.
-/

namespace AgentVeil

open Rust
open Rust.Value (asStr asBool asArray asObject field hasField)

variable {o : Object}

/-! ## Field checks -/

theorem accepts_stringOrNull {v : Value} :
    stringOrNull.accepts v.document = true ↔ v = .null ∨ ∃ s, v = .string s := by
  simp only [stringOrNull, Shape.accepts_oneOf, List.exists_mem_cons_iff, List.not_mem_nil,
    false_and, exists_false, or_false, Shape.accepts_string, Shape.accepts_null]
  exact or_comm

theorem requireString_iff {name : String} :
    requireString o name.toList = .ok () ↔ (required name .string).Holds o := by
  rw [requireString_ok_iff, required, Shape.holds_required]
  simp only [Shape.accepts_string]
  constructor
  · rintro ⟨s, hs⟩
    exact ⟨_, hs, s, rfl⟩
  · rintro ⟨_, hs, s, rfl⟩
    exact ⟨s, hs⟩

theorem requireBool_iff {name : String} :
    requireBool o name.toList = .ok () ↔ (required name .bool).Holds o := by
  rw [required, Shape.holds_required]
  simp only [Shape.accepts_bool]
  unfold requireBool
  cases field o name.toList with
  | none => simp
  | some v => cases v <;> simp [asBool]

theorem requireOptionalString_iff {name : String} :
    requireOptionalString o name.toList = .ok () ↔ (optional name stringOrNull).Holds o := by
  rw [optional, Shape.holds_optional]
  simp only [accepts_stringOrNull]
  unfold requireOptionalString
  rw [ensure_ok_iff]
  cases field o name.toList with
  | none => simp
  | some v => cases v <;> simp [Value.isNull, Value.isString, asStr]

theorem ensureAllowedKeys_iff {allowed : List String} {error : Str → PayloadError} :
    ensureAllowedKeys o allowed error = .ok () ↔
      ∀ k ∈ o.map Prod.fst, k ∈ allowed.map String.toList := by
  unfold ensureAllowedKeys
  rw [forM_ok_iff]
  simp only [ensure_ok_iff]

theorem typeOf_iff {type : String} :
    typeOf o = some type.toList ↔ (required "type" (.literal type)).Holds o := by
  rw [required, Shape.holds_required]
  simp only [Shape.accepts_literal]
  unfold typeOf
  rw [Option.bind_eq_some_iff]
  simp only [asStr_eq_some]

theorem field_canonical (ho : (Value.object o).Canonical) {k : Str} {v : Value}
    (h : field o k = some v) : v.Canonical := by
  have hmem := (Value.field_eq_some_iff ho.nodup_keys).mp h
  cases ho with
  | object _ hall => exact hall _ hmem

/-- A value that is an object with these fields and no others, or something else. -/
theorem accepts_closed {fields : List (FieldSpec Shape)} (hf : (fields.map FieldSpec.name).Nodup)
    {v : Value} (hv : v.Canonical) :
    (Shape.record fields none).accepts v.document = true ↔
      ∃ m, v = .object m ∧ (∀ k ∈ m.map Prod.fst, k ∈ (fields.map FieldSpec.name).map String.toList) ∧
        ∀ d ∈ fields, d.Holds m := by
  constructor
  · intro h
    obtain ⟨m, rfl⟩ := Shape.accepts_record h
    exact ⟨m, rfl, (Shape.closed_iff hf hv.nodup_keys).mp h⟩
  · rintro ⟨m, rfl, h⟩
    exact (Shape.closed_iff hf hv.nodup_keys).mpr h

/-- An optional object that may be null, and the check of its fields. -/
theorem objectOrNull_iff {name : String} {shape : Shape} {e : PayloadError}
    {check : Object → Except PayloadError Unit} {result : Except PayloadError Unit}
    (hobject : ∀ v : Value, shape.accepts v.document = true → ∃ m, v = .object m)
    (hcheck : ∀ m, (Value.object m).Canonical →
      (check m = .ok () ↔ shape.accepts (Value.object m).document = true))
    (ho : (Value.object o).Canonical)
    (hresult : result = match field o name.toList with
      | none | some .null => .ok ()
      | some v => okOr v.asObject e >>= check) :
    result = .ok () ↔ (optional name (.oneOf [.null, shape])).Holds o := by
  rw [optional, Shape.holds_optional, hresult]
  cases hv : field o name.toList with
  | none => simp
  | some v =>
      have hcanonical := field_canonical ho hv
      simp only [Option.some.injEq, forall_eq', Shape.accepts_oneOf, List.exists_mem_cons_iff,
        List.not_mem_nil, false_and, exists_false, or_false, Shape.accepts_null]
      cases v with
      | null => simp
      | object m =>
          simp only [reduceCtorEq, false_or]
          exact hcheck m hcanonical
      | _ =>
          simp only [reduceCtorEq, false_or]
          constructor
          · intro h
            cases h
          · intro h
            obtain ⟨m, hm⟩ := hobject _ h
            cases hm

theorem validateOptionalMetadata_iff (ho : (Value.object o).Canonical) :
    validateOptionalMetadata o = .ok () ↔ metadata.Holds o := by
  refine objectOrNull_iff (fun v => Shape.accepts_record) (fun m hm => ?_) ho rfl
  rw [Shape.closed_iff (by decide) hm.nodup_keys, check_bind_ok_iff, ensureAllowedKeys_iff,
    requireOptionalString_iff]
  simp [optional]

/-! ## Parts -/

theorem collectPart_kind_iff {base : Path} {name : String} {fieldClass : FieldClass}
    {kind : Option Str → Except PayloadError Bool} {part : Value × Nat} :
    Succeeds (collectPart base name fieldClass kind part) ↔ ∃ m, part.1 = .object m ∧
      ((kind (typeOf m) = .ok true ∧ (∀ k ∈ m.map Prod.fst, k ∈ ["type", "text"].map String.toList) ∧
          (required "text" .string).Holds m) ∨
        (kind (typeOf m) = .ok false ∧
          (∀ k ∈ m.map Prod.fst, k ∈ ["type", "encrypted_content"].map String.toList) ∧
          (required "encrypted_content" .string).Holds m)) := by
  unfold collectPart
  rw [succeeds_bind_iff]
  simp only [okOr_ok_iff, asObject_eq_some]
  refine exists_congr fun m => and_congr_right fun _ => ?_
  rw [succeeds_bind_iff]
  constructor
  · rintro ⟨b, hb, h⟩
    cases b with
    | true =>
        rw [if_pos rfl, succeeds_check_bind_iff, ensureTextPart, check_bind_ok_iff,
          ensureAllowedKeys_iff, requireString_iff] at h
        exact .inl ⟨hb, h.1⟩
    | false =>
        rw [if_neg (by decide), succeeds_check_bind_iff, succeeds_check_bind_iff,
          ensureAllowedKeys_iff, requireString_iff] at h
        exact .inr ⟨hb, h.1, h.2.1⟩
  · intro h
    rcases h with ⟨hb, hkeys, htext⟩ | ⟨hb, hkeys, htext⟩
    · refine ⟨true, hb, ?_⟩
      rw [if_pos rfl, succeeds_check_bind_iff, ensureTextPart, check_bind_ok_iff,
        ensureAllowedKeys_iff, requireString_iff]
      exact ⟨⟨hkeys, htext⟩, succeeds_ok _⟩
    · refine ⟨false, hb, ?_⟩
      rw [if_neg (by decide), succeeds_check_bind_iff, succeeds_check_bind_iff,
        ensureAllowedKeys_iff, requireString_iff]
      exact ⟨hkeys, htext, succeeds_ok _⟩

theorem accepts_partShape {type text : String} (hname : text ≠ "type") {v : Value}
    (hv : v.Canonical) : (partShape type text).accepts v.document = true ↔
      ∃ m, v = .object m ∧ typeOf m = some type.toList ∧
        (∀ k ∈ m.map Prod.fst, k ∈ ["type", text].map String.toList) ∧
        (required text .string).Holds m := by
  have hnodup : ([required "type" (.literal type), required text .string].map FieldSpec.name).Nodup := by
    simpa [required] using hname.symm
  rw [partShape, accepts_closed hnodup hv]
  refine exists_congr fun m => and_congr_right fun _ => ?_
  rw [typeOf_iff, List.forall_mem_cons, List.forall_mem_singleton]
  constructor
  · rintro ⟨hkeys, htype, htext⟩
    exact ⟨htype, hkeys, htext⟩
  · rintro ⟨htype, hkeys, htext⟩
    exact ⟨hkeys, htype, htext⟩

theorem partKind_ok_false_iff {text encrypted media : List String}
    (hdisjoint : ∀ t ∈ encrypted, t ∉ text) {type : Option Str} :
    partKind text encrypted media type = .ok false ↔ ∃ t ∈ encrypted, type = some t.toList := by
  have hmem : ∀ l : List String, type ∈ l.map (some ·.toList) ↔ ∃ t ∈ l, type = some t.toList := by
    simp only [List.mem_map, eq_comm, implies_true]
  unfold partKind
  by_cases htext : type ∈ text.map (some ·.toList)
  · rw [if_pos htext]
    constructor
    · intro h
      cases h
    · rintro ⟨t, ht, rfl⟩
      obtain ⟨t', ht', heq⟩ := (hmem text).mp htext
      rw [Option.some.injEq, String.toList_inj] at heq
      exact absurd ht' (heq ▸ hdisjoint t ht)
  · rw [if_neg htext, ← hmem]
    split
    · rename_i h
      exact iff_of_true rfl h
    · rename_i h
      split
      · exact iff_of_false (by rintro ⟨⟩) h
      · exact iff_of_false (by rintro ⟨⟩) h

/-- A part of a content is one of those in the table. -/
theorem collectPart_iff {base : Path} {name : String} {fieldClass : FieldClass}
    {text encrypted media : List String} (hdisjoint : ∀ t ∈ encrypted, t ∉ text)
    {part : Value × Nat} (hpart : part.1.Canonical) :
    Succeeds (collectPart base name fieldClass (partKind text encrypted media) part) ↔
      (partsShape text encrypted).accepts part.1.document = true := by
  rw [collectPart_kind_iff, partsShape, Shape.accepts_oneOf]
  simp only [partKind_ok_true_iff, partKind_ok_false_iff hdisjoint]
  constructor
  · rintro ⟨m, hm, h⟩
    rcases h with ⟨⟨t, ht, htype⟩, h⟩ | ⟨⟨t, ht, htype⟩, h⟩
    · exact ⟨_, List.mem_append_left _ (List.mem_map_of_mem ht),
        (accepts_partShape (by decide) hpart).mpr ⟨m, hm, htype, h⟩⟩
    · exact ⟨_, List.mem_append_right _ (List.mem_map_of_mem ht),
        (accepts_partShape (by decide) hpart).mpr ⟨m, hm, htype, h⟩⟩
  · rintro ⟨s, hs, h⟩
    rcases List.mem_append.mp hs with hs | hs
    · obtain ⟨t, ht, rfl⟩ := List.mem_map.mp hs
      obtain ⟨m, hm, htype, h⟩ := (accepts_partShape (by decide) hpart).mp h
      exact ⟨m, hm, .inl ⟨⟨t, ht, htype⟩, h⟩⟩
    · obtain ⟨t, ht, rfl⟩ := List.mem_map.mp hs
      obtain ⟨m, hm, htype, h⟩ := (accepts_partShape (by decide) hpart).mp h
      exact ⟨m, hm, .inr ⟨⟨t, ht, htype⟩, h⟩⟩

/-- The parts of a content are each one of those in the table. -/
theorem gather_parts_iff {base : Path} {name : String} {fieldClass : FieldClass}
    {text encrypted media : List String} (hdisjoint : ∀ t ∈ encrypted, t ∉ text)
    {parts : List Value} (hparts : (Value.array parts).Canonical) :
    Succeeds (gather (collectPart base name fieldClass (partKind text encrypted media))
        parts.zipIdx) ↔ (Shape.array (partsShape text encrypted)).accepts
          (Value.array parts).document = true := by
  rw [succeeds_gather_iff, Shape.accepts_array]
  have hcanonical : ∀ v ∈ parts, v.Canonical := by
    cases hparts with
    | array h => exact h
  simp only [Value.array.injEq, exists_eq_left']
  constructor
  · intro h v hv
    obtain ⟨i, hi⟩ := List.mem_iff_getElem?.mp hv
    exact (collectPart_iff hdisjoint (hcanonical v hv)).mp
      (h (v, i) (List.mk_mem_zipIdx_iff_getElem?.mpr hi))
  · intro h part hpart
    have hv := List.fst_mem_of_mem_zipIdx hpart
    exact (collectPart_iff hdisjoint (hcanonical _ hv)).mpr (h _ hv)

theorem accepts_textOrParts {parts : Shape} {v : Value} :
    (textOrParts parts).accepts v.document = true ↔
      v.isString = true ∨ (Shape.array parts).accepts v.document = true := by
  simp only [textOrParts, Shape.accepts_oneOf, List.exists_mem_cons_iff, List.not_mem_nil,
    false_and, exists_false, or_false, Shape.accepts_string, isString_iff]

/-- A content that is a string or a list of parts. -/
theorem content_iff {base : Path} {name : String} {fieldClass : FieldClass} {e : PayloadError}
    {text encrypted media : List String} (hdisjoint : ∀ t ∈ encrypted, t ∉ text)
    {targets : List TextTarget} {content : Value} (hcontent : content.Canonical) :
    Succeeds (if content.isString then .ok targets
        else okOr content.asArray e >>= fun parts =>
          gather (collectPart base name fieldClass (partKind text encrypted media)) parts.zipIdx) ↔
      (textOrParts (partsShape text encrypted)).accepts content.document = true := by
  rw [accepts_textOrParts]
  by_cases hs : content.isString = true
  · rw [if_pos hs]
    exact iff_of_true (succeeds_ok _) (.inl hs)
  · rw [if_neg hs, succeeds_bind_iff]
    simp only [okOr_ok_iff, asArray_eq_some, hs, Bool.false_eq_true, false_or]
    constructor
    · rintro ⟨parts, rfl, h⟩
      exact (gather_parts_iff hdisjoint hcontent).mp h
    · intro h
      obtain ⟨parts, rfl, _⟩ := Shape.accepts_array.mp h
      exact ⟨parts, rfl, (gather_parts_iff hdisjoint hcontent).mpr h⟩

theorem required_content_iff (ho : (Value.object o).Canonical) {base : Path} {name : String}
    {fieldClass : FieldClass} {e missing : PayloadError} {text encrypted media : List String}
    (hdisjoint : ∀ t ∈ encrypted, t ∉ text) {targets : List TextTarget} :
    Succeeds (okOr (field o name.toList) missing >>= fun content =>
        if content.isString then .ok targets
        else okOr content.asArray e >>= fun parts =>
          gather (collectPart base name fieldClass (partKind text encrypted media)) parts.zipIdx) ↔
      (required name (textOrParts (partsShape text encrypted))).Holds o := by
  rw [succeeds_bind_iff, required, Shape.holds_required]
  simp only [okOr_ok_iff]
  exact exists_congr fun content => and_congr_right fun hcontent =>
    content_iff hdisjoint (field_canonical ho hcontent)

end AgentVeil
