import AgentVeil.Payload.Lemmas.Rows
import AgentVeil.Payload.Theorems

/-!
# The accepted language

The parser accepts the documents of one shape, without repeated keys.
-/

namespace AgentVeil

open Rust
open Rust.Value (asStr asBool asArray asObject field hasField)

variable {o : Object}

/-! ## Controls -/

theorem toolChoice_iff : (field o "tool_choice".toList).bind asStr = some "auto".toList ↔
    (required "tool_choice" (.literal "auto")).Holds o := by
  rw [required, Shape.holds_required, Option.bind_eq_some_iff]
  simp only [asStr_eq_some, Shape.accepts_literal]

section Controls

variable (ho : (Value.object o).Canonical)

include ho

theorem validateReasoning_iff :
    validateReasoning o = .ok () ↔ (optional "reasoning" reasoningShape).Holds o := by
  refine objectOrNull_iff (fun v => Shape.accepts_record) (fun m hm => ?_) ho rfl
  rw [Shape.closed_iff (by decide) hm.nodup_keys, check_bind_ok_iff, ensureAllowedKeys_iff,
    forM_ok_iff]
  simp only [List.forall_mem_cons, requireOptionalString_iff, List.not_mem_nil, false_implies,
    implies_true, and_true]
  exact Iff.rfl

theorem validateStreamOptions_iff : validateStreamOptions o = .ok () ↔
    (optional "stream_options"
      (.record [required "reasoning_summary_delivery" .string] none)).Holds o := by
  rw [optional, Shape.holds_optional]
  unfold validateStreamOptions
  cases hv : field o "stream_options".toList with
  | none => exact iff_of_true rfl (by rintro _ ⟨⟩)
  | some v =>
      simp only [Option.some.injEq, forall_eq']
      rw [accepts_closed (by decide) (field_canonical ho hv), bind_ok_iff]
      simp only [okOr_ok_iff, asObject_eq_some, check_bind_ok_iff, ensureAllowedKeys_iff,
        requireString_iff, List.forall_mem_singleton]
      exact Iff.rfl

omit ho in
theorem validateInclude_iff : validateInclude o = .ok () ↔
    (optional "include" (.atMost 4 (.literal "reasoning.encrypted_content"))).Holds o := by
  rw [optional, Shape.holds_optional]
  unfold validateInclude
  cases field o "include".toList with
  | none => exact iff_of_true rfl (by rintro _ ⟨⟩)
  | some v =>
      simp only [Option.some.injEq, forall_eq', Shape.accepts_atMost, Shape.accepts_literal]
      rw [bind_ok_iff]
      simp only [okOr_ok_iff, asArray_eq_some, check_bind_ok_iff, ensure_ok_iff]
      refine exists_congr fun entries => and_congr_right fun _ => ?_
      simp only [not_or, not_exists, not_and, not_not, Nat.not_lt, asStr_eq_some, isString_iff]
      constructor
      · rintro ⟨_, hlen, hall⟩
        exact ⟨hlen, hall⟩
      · rintro ⟨hlen, hall⟩
        exact ⟨fun w hw => ⟨_, hall w hw⟩, hlen, hall⟩

theorem validateFormat_iff : validateFormat o = .ok () ↔
    formatShape.accepts (Value.object o).document = true := by
  have htext : (Shape.record [required "type" (.literal "text")] none).accepts
      (Value.object o).document = true ↔ (∀ k ∈ o.map Prod.fst, k ∈ ["type"].map String.toList) ∧
        typeOf o = some "text".toList := by
    rw [Shape.closed_iff (by decide) ho.nodup_keys, List.forall_mem_singleton, ← typeOf_iff]
    exact Iff.rfl
  have hschema : (Shape.record [required "type" (.literal "json_schema"), required "strict" .bool,
      required "name" .string, required "schema" .any] none).accepts
        (Value.object o).document = true ↔
      (∀ k ∈ o.map Prod.fst, k ∈ ["type", "strict", "schema", "name"].map String.toList) ∧
        typeOf o = some "json_schema".toList ∧ (required "strict" .bool).Holds o ∧
        (required "name" .string).Holds o ∧ hasField o "schema".toList = true := by
    have hany : (required "schema" .any).Holds o ↔ hasField o "schema".toList = true := by
      rw [required, Shape.holds_required, hasField, Option.isSome_iff_exists]
      simp only [Shape.accepts_any, and_true]
    rw [Shape.closed_iff (by decide) ho.nodup_keys, allowed_congr
      (by decide : (∀ a ∈ ["type", "strict", "schema", "name"], a ∈ ["type", "strict", "name",
        "schema"]) ∧ ∀ n ∈ ["type", "strict", "name", "schema"], n ∈ ["type", "strict", "schema",
        "name"]), typeOf_iff, ← hany]
    simp only [List.forall_mem_cons, List.not_mem_nil, false_implies, implies_true, and_true]
    exact Iff.rfl
  have htype : requireString o "type".toList = .ok () ↔ ∃ t, typeOf o = some t := by
    simp only [requireString_ok_iff, typeOf, Option.bind_eq_some_iff, asStr_eq_some,
      exists_eq_right]
  rw [validateFormat, check_bind_ok_iff, formatShape, Shape.accepts_oneOf]
  simp only [List.exists_mem_cons_iff, List.not_mem_nil, false_and, exists_false, or_false, htext,
    hschema, htype]
  by_cases ht : typeOf o = some "text".toList
  · rw [if_pos ht, ensureAllowedKeys_iff, ht]
    simp
  · rw [if_neg ht]
    by_cases hj : typeOf o = some "json_schema".toList
    · rw [if_pos hj, check_bind_ok_iff, check_bind_ok_iff, check_bind_ok_iff, ensure_ok_iff,
        ensureAllowedKeys_iff, requireBool_iff, requireString_iff, hj]
      simp
    · rw [if_neg hj]
      refine iff_of_false (fun h => by cases h.2) fun h => ?_
      rcases h with h | h
      · exact ht h.2
      · exact hj h.2.1

theorem validateText_iff :
    validateText o = .ok () ↔ (optional "text" (textShape formatOrNull)).Holds o := by
  refine objectOrNull_iff (fun v => Shape.accepts_record) (fun m hm => ?_) ho rfl
  rw [Shape.closed_iff (by decide) hm.nodup_keys, validateTextControls, check_bind_ok_iff,
    check_bind_ok_iff, ensureAllowedKeys_iff, requireOptionalString_iff]
  simp only [List.forall_mem_cons, List.not_mem_nil, false_implies, implies_true, and_true]
  refine and_congr_right fun _ => and_congr_right fun _ =>
    objectOrNull_iff (fun v hv => ?_) (fun format hformat => validateFormat_iff hformat) hm rfl
  obtain ⟨s, hs, h⟩ := Shape.accepts_oneOf.mp hv
  simp only [List.mem_cons, List.not_mem_nil, or_false] at hs
  rcases hs with rfl | rfl
  · exact Shape.accepts_record h
  · exact Shape.accepts_record h

theorem validateTopLevelControls_iff : validateTopLevelControls o = .ok () ↔
    (required "tool_choice" (.literal "auto")).Holds o ∧
      (optional "reasoning" reasoningShape).Holds o ∧
      (optional "stream_options"
        (.record [required "reasoning_summary_delivery" .string] none)).Holds o ∧
      (optional "include" (.atMost 4 (.literal "reasoning.encrypted_content"))).Holds o ∧
      (optional "service_tier" stringOrNull).Holds o ∧
      (optional "prompt_cache_key" stringOrNull).Holds o ∧
      (optional "text" (textShape formatOrNull)).Holds o := by
  simp only [validateTopLevelControls, check_bind_ok_iff, ensure_ok_iff, toolChoice_iff,
    validateReasoning_iff ho, validateStreamOptions_iff ho, validateInclude_iff,
    requireOptionalString_iff, validateText_iff ho]

end Controls

/-! ## Texts and tools -/

theorem accepts_strings (ho : (Value.object o).Canonical) :
    (Shape.record [] (some .string)).accepts (Value.object o).document = true ↔
      ∀ f ∈ o, f.2.isString = true := by
  rw [Shape.record_iff (by decide) _ ho.nodup_keys]
  constructor
  · rintro ⟨h, _⟩ f hf
    rcases h f hf with ⟨d, hd, _⟩ | ⟨s, hs, h⟩
    · cases hd
    · obtain rfl := Option.mem_some_iff.mp hs
      exact isString_iff.mpr (Shape.accepts_string.mp h)
  · intro h
    exact ⟨fun f hf => .inr ⟨_, rfl, Shape.accepts_string.mpr (isString_iff.mp (h f hf))⟩, nofun⟩

section Texts

theorem collectInstructions_iff : Succeeds (collectInstructions o) ↔
    (optional "instructions" .string).Holds o := by
  rw [optional, Shape.holds_optional]
  unfold collectInstructions
  cases field o "instructions".toList with
  | none => exact iff_of_true (succeeds_ok _) (by rintro _ ⟨⟩)
  | some v =>
      simp only [Option.some.injEq, forall_eq', Shape.accepts_string]
      rw [succeeds_check_bind_iff, ensure_ok_iff, isString_iff, and_iff_left (succeeds_ok _)]

theorem collectTools_iff : Succeeds (collectTools o) ↔
    (optional "tools" (.array .any)).Holds o := by
  rw [optional, Shape.holds_optional]
  unfold collectTools
  cases field o "tools".toList with
  | none => exact iff_of_true (succeeds_ok _) (by rintro _ ⟨⟩)
  | some v =>
      simp only [Option.some.injEq, forall_eq']
      exact collectToolArray_iff

variable (ho : (Value.object o).Canonical)

include ho

theorem collectInput_iff : Succeeds (collectInput o) ↔
    (required "input" (textOrParts (itemShape reasoningRow))).Holds o := by
  rw [collectInput, succeeds_bind_iff, required, Shape.holds_required]
  simp only [okOr_ok_iff]
  refine exists_congr fun input => and_congr_right fun hinput => ?_
  have hcanonical := field_canonical ho hinput
  rw [accepts_textOrParts, Shape.accepts_array]
  cases hcanonical with
  | string s => exact iff_of_true (succeeds_ok _) (.inl rfl)
  | @array items hitems =>
      simp only [Value.isString, asStr, Option.isSome_none, Bool.false_eq_true, false_or,
        Value.array.injEq, exists_eq_left']
      rw [succeeds_gather_iff]
      constructor
      · intro h v hv
        obtain ⟨i, hi⟩ := List.mem_iff_getElem?.mp hv
        exact (collectInputItem_iff (hitems v hv) i).mp
          (h (v, i) (List.mk_mem_zipIdx_iff_getElem?.mpr hi))
      · intro h item hitem
        have hv := List.fst_mem_of_mem_zipIdx hitem
        exact (collectInputItem_iff (hitems _ hv) item.2).mpr (h _ hv)
  | _ => exact iff_of_false (not_succeeds_error _) (by simp [Value.isString, asStr])

theorem collectClientMetadata_iff : Succeeds (collectClientMetadata o) ↔
    (optional "client_metadata" (.record [] (some .string))).Holds o := by
  rw [optional, Shape.holds_optional]
  unfold collectClientMetadata
  cases hv : field o "client_metadata".toList with
  | none => exact iff_of_true (succeeds_ok _) (by rintro _ ⟨⟩)
  | some v =>
      simp only [Option.some.injEq, forall_eq']
      rw [succeeds_bind_iff]
      simp only [okOr_ok_iff, asObject_eq_some]
      constructor
      · rintro ⟨m, rfl, h⟩
        refine (accepts_strings (field_canonical ho hv)).mpr fun f hf => ?_
        have := succeeds_gather_iff.mp h f hf
        rw [succeeds_check_bind_iff, ensure_ok_iff] at this
        exact this.1
      · intro h
        obtain ⟨m, rfl⟩ := Shape.accepts_record h
        refine ⟨m, rfl, succeeds_gather_iff.mpr fun f hf => ?_⟩
        rw [succeeds_check_bind_iff, ensure_ok_iff]
        exact ⟨(accepts_strings (field_canonical ho hv)).mp h f hf, succeeds_ok _⟩

end Texts

/-! ## Requests -/

theorem asBool_iff {name : String} {b : Bool} : (field o name.toList).bind asBool = some b ↔
    (required name (.exactly b)).Holds o := by
  rw [required, Shape.holds_required, Option.bind_eq_some_iff]
  simp only [Shape.accepts_exactly]
  refine exists_congr fun v => and_congr_right fun _ => ?_
  cases v <;> simp [asBool]

theorem holds_required_mono {name : String} {shape shape' : Shape}
    (hshape : ∀ v : Value, shape.accepts v.document = true → shape'.accepts v.document = true)
    (h : (required name shape).Holds o) : (required name shape').Holds o := by
  rw [required, Shape.holds_required] at h ⊢
  obtain ⟨v, hv, h⟩ := h
  exact ⟨v, hv, hshape v h⟩

theorem validateRoot_iff (ho : (Value.object o).Canonical) : validateRoot o = .ok () ↔
    (∀ k ∈ o.map Prod.fst, k ∈ topLevelFields.map String.toList) ∧
      (required "model" .string).Holds o ∧ (required "store" (.exactly false)).Holds o ∧
      (required "parallel_tool_calls" .bool).Holds o ∧
      (required "stream" (.exactly true)).Holds o ∧ validateTopLevelControls o = .ok () := by
  simp only [validateRoot, check_bind_ok_iff, ensure_ok_iff, ensureAllowedKeys_iff,
    requireString_iff, requireBool_iff, asBool_iff]
  constructor
  · rintro ⟨hkeys, hmodel, _, hstore, _, hparallel, hstream, hcontrols⟩
    exact ⟨hkeys, hmodel, hstore, hparallel, hstream, hcontrols⟩
  · rintro ⟨hkeys, hmodel, hstore, hparallel, hstream, hcontrols⟩
    have hbool : (required "store" .bool).Holds o := holds_required_mono
      (fun v hv => Shape.accepts_bool.mpr ⟨_, Shape.accepts_exactly.mp hv⟩) hstore
    have hchoice : (required "tool_choice" .string).Holds o := holds_required_mono
      (fun v hv => Shape.accepts_string.mpr ⟨_, Shape.accepts_literal.mp hv⟩)
      ((validateTopLevelControls_iff ho).mp hcontrols).1
    exact ⟨hkeys, hmodel, hbool, hstore, hchoice, hparallel, hstream, hcontrols⟩

theorem collectDeclared_iff : Succeeds (collectDeclared o) ↔ Succeeds (collectInstructions o) ∧
    Succeeds (collectInput o) ∧ Succeeds (collectTools o) ∧ Succeeds (collectClientMetadata o) := by
  have hbind : ∀ {x : Except PayloadError (List TextTarget)} {P : Prop}
      {f : List TextTarget → Except PayloadError (List TextTarget)},
      (∀ ts, Succeeds (f ts) ↔ P) → (Succeeds (x >>= f) ↔ Succeeds x ∧ P) := by
    intro x P f h
    rw [succeeds_bind_iff]
    simp only [h]
    exact ⟨fun ⟨ts, hx, hp⟩ => ⟨⟨ts, hx⟩, hp⟩, fun ⟨⟨ts, hx⟩, hp⟩ => ⟨ts, hx, hp⟩⟩
  refine hbind fun _ => hbind fun _ => hbind fun _ => ?_
  rw [succeeds_bind_iff]
  simp only [succeeds_ok, and_true]
  exact Iff.rfl

/-- The parser accepts a value exactly when it has the accepted shape. -/
theorem ofValue_iff {v : Value} (hv : v.Canonical) :
    Succeeds (ValidatedRequest.ofValue v) ↔ acceptedShape.accepts v.document = true := by
  have hroot : ∀ root, (Value.object root).Canonical →
      ((validateRoot root = .ok () ∧ Succeeds (collectDeclared root)) ↔
        acceptedShape.accepts (Value.object root).document = true) := by
    intro root hroot
    rw [validateRoot_iff hroot, validateTopLevelControls_iff hroot, collectDeclared_iff,
      collectInstructions_iff, collectInput_iff hroot, collectTools_iff,
      collectClientMetadata_iff hroot, acceptedShape,
      Shape.closed_iff (by decide) hroot.nodup_keys, allowed_congr
        (by decide : (∀ a ∈ topLevelFields, a ∈ (rootFields formatOrNull reasoningRow).map
          FieldSpec.name) ∧ ∀ n ∈ (rootFields formatOrNull reasoningRow).map FieldSpec.name,
          n ∈ topLevelFields)]
    simp only [rootFields, List.forall_mem_cons, List.not_mem_nil, false_implies, implies_true,
      and_true]
    constructor
    · rintro ⟨⟨hkeys, hmodel, hstore, hparallel, hstream, hchoice, hreasoning, hoptions, hinclude,
        htier, hcache, htext⟩, hinstructions, hinput, htools, hmetadata⟩
      exact ⟨hkeys, hmodel, hinstructions, hinput, htools, hchoice, hparallel, hreasoning, hstore,
        hstream, hoptions, hinclude, htier, hcache, htext, hmetadata⟩
    · rintro ⟨hkeys, hmodel, hinstructions, hinput, htools, hchoice, hparallel, hreasoning, hstore,
        hstream, hoptions, hinclude, htier, hcache, htext, hmetadata⟩
      exact ⟨⟨hkeys, hmodel, hstore, hparallel, hstream, hchoice, hreasoning, hoptions, hinclude,
        htier, hcache, htext⟩, hinstructions, hinput, htools, hmetadata⟩
  rw [ValidatedRequest.ofValue, succeeds_bind_iff]
  simp only [okOr_ok_iff, asObject_eq_some]
  constructor
  · rintro ⟨root, rfl, h⟩
    rw [succeeds_check_bind_iff, succeeds_bind_iff] at h
    obtain ⟨hvalid, targets, htargets, _⟩ := h
    exact (hroot root hv).mp ⟨hvalid, targets, htargets⟩
  · intro h
    obtain ⟨root, rfl⟩ := Shape.accepts_record h
    obtain ⟨hvalid, targets, htargets⟩ := (hroot root hv).mpr h
    refine ⟨root, rfl, ?_⟩
    rw [succeeds_check_bind_iff, succeeds_bind_iff]
    exact ⟨hvalid, targets, htargets, succeeds_ok _⟩

/-! ## Unique keys -/

theorem visitSeq_stores {items : List Raw} {values : List Value}
    (ih : ∀ raw ∈ items, ∀ v, uniqueValue raw = some v → raw.Stores v)
    (h : visitSeq items = some values) : Raw.StoresItems items values := by
  induction items generalizing values with
  | nil => cases h; rfl
  | cons raw rest ihl =>
      obtain ⟨hraw, hrest⟩ := List.forall_mem_cons.mp ih
      simp only [visitSeq, Option.bind_eq_bind, Option.bind_eq_some_iff, Option.some.injEq] at h
      obtain ⟨v, hv, vs, hvs, rfl⟩ := h
      exact ⟨v, vs, rfl, hraw v hv, ihl hrest hvs⟩

theorem visitMap_stores {fields : List (Str × Raw)} {ks : List Str} {o o' : Object}
    (ih : ∀ f ∈ fields, ∀ v, uniqueValue f.2 = some v → f.2.Stores v)
    (h : visitMap ks o fields = some o') :
    ∃ stored, o'.Perm (o ++ stored) ∧ Raw.StoresFields fields stored := by
  induction fields generalizing ks o with
  | nil =>
      cases h
      exact ⟨[], by simp, rfl⟩
  | cons f rest ihl =>
      obtain ⟨k, raw⟩ := f
      obtain ⟨hraw, hrest⟩ := List.forall_mem_cons.mp ih
      simp only [visitMap] at h
      split at h
      · cases h
      simp only [Option.bind_eq_bind, Option.bind_eq_some_iff] at h
      obtain ⟨v, hv, h⟩ := h
      obtain ⟨stored, hperm, hstored⟩ := ihl hrest h
      refine ⟨(k, v) :: stored, hperm.trans ?_, v, stored, rfl, hraw v hv, hstored⟩
      have hinsert := (List.perm_orderedInsert (fun a b : Str × Value => a.1 ≤ b.1) (k, v) o)
      exact (hinsert.append_right stored).trans List.perm_middle.symm

/-- The value of a document has the fields of its objects and no others. -/
theorem uniqueValue_stores {raw : Raw} {v : Value} (h : uniqueValue raw = some v) :
    raw.Stores v := by
  induction raw using Raw.induction generalizing v with
  | f64 bits =>
      simp only [uniqueValue] at h
      split at h
      · cases h; rfl
      · cases h
  | seq items ih =>
      obtain ⟨values, hvalues, rfl⟩ := Option.map_eq_some_iff.mp h
      exact ⟨values, rfl, visitSeq_stores (fun raw hraw v hv => ih raw hraw hv) hvalues⟩
  | map fields ih =>
      obtain ⟨object, hobject, rfl⟩ := Option.map_eq_some_iff.mp h
      obtain ⟨stored, hperm, hstored⟩ := visitMap_stores (fun f hf v hv => ih f hf hv) hobject
      exact ⟨object, stored, rfl, hperm, hstored⟩
  | _ => cases h; rfl

theorem visitSeq_isSome {items : List Raw} :
    (visitSeq items).isSome = items.all fun raw => (uniqueValue raw).isSome := by
  induction items with
  | nil => rfl
  | cons raw rest ih =>
      rw [List.all_cons, ← ih, visitSeq]
      cases uniqueValue raw with
      | none => rfl
      | some v => cases visitSeq rest <;> rfl

theorem visitMap_isSome {fields : List (Str × Raw)} {ks : List Str} {o : Object} :
    (visitMap ks o fields).isSome = true ↔ (∀ f ∈ fields, (uniqueValue f.2).isSome = true) ∧
      (fields.map Prod.fst).Nodup ∧ ∀ f ∈ fields, f.1 ∉ ks := by
  induction fields generalizing ks o with
  | nil => simp [visitMap]
  | cons f rest ih =>
      obtain ⟨k, raw⟩ := f
      simp only [visitMap, List.forall_mem_cons, List.map_cons, List.nodup_cons]
      by_cases hk : k ∈ ks
      · simp [hk]
      · rw [if_neg hk]
        cases hv : uniqueValue raw with
        | none => simp
        | some v =>
            simp only [Option.bind_eq_bind, Option.bind_some, ih, Option.isSome_some, true_and, hk,
              not_false_eq_true, List.mem_cons, not_or, List.mem_map, not_exists, not_and]
            constructor
            · rintro ⟨hall, hnodup, hnew⟩
              exact ⟨hall, ⟨fun f hf heq => (hnew f hf).1 heq, hnodup⟩, fun f hf => (hnew f hf).2⟩
            · rintro ⟨hall, ⟨hfresh, hnodup⟩, hnew⟩
              exact ⟨hall, hnodup, fun f hf => ⟨hfresh f hf, hnew f hf⟩⟩

/-- A document has a value unless an object repeats a key or a number is not finite. -/
theorem uniqueValue_isSome {raw : Raw} : (uniqueValue raw).isSome = true ↔
    raw.distinct = true ∧ raw.finite = true := by
  induction raw using Raw.induction with
  | f64 bits =>
      simp only [uniqueValue, Raw.distinct, Raw.finite, Raw.everywhere, Raw.asMap, Option.all_none,
        true_and]
      split
      · simp [*]
      · simp [*]
  | seq items ih =>
      simp only [uniqueValue, Option.isSome_map, visitSeq_isSome, Raw.distinct, Raw.finite,
        Raw.everywhere, Raw.asMap, Option.all_none, Bool.true_and, Raw.everywhereItems_eq,
        List.all_eq_true]
      rw [← forall_and]
      simp only [← imp_and]
      exact forall₂_congr fun raw hraw => ih raw hraw
  | map fields ih =>
      simp only [uniqueValue, Option.isSome_map, visitMap_isSome, Raw.distinct, Raw.finite,
        Raw.everywhere, Raw.asMap, Option.all_some, Raw.everywhereFields_eq, List.all_eq_true,
        Bool.and_eq_true, decide_eq_true_eq, true_and, List.not_mem_nil, not_false_eq_true,
        implies_true, and_true]
      have hparts : (∀ f ∈ fields, (uniqueValue f.2).isSome = true) ↔
          (∀ f ∈ fields, f.2.distinct = true) ∧ ∀ f ∈ fields, f.2.finite = true := by
        rw [← forall_and]
        simp only [← imp_and]
        exact forall₂_congr fun f hf => ih f hf
      rw [hparts]
      constructor
      · rintro ⟨⟨hdistinct, hfinite⟩, hnodup⟩
        exact ⟨⟨hnodup, hdistinct⟩, hfinite⟩
      · rintro ⟨⟨hnodup, hdistinct⟩, hfinite⟩
        exact ⟨⟨hdistinct, hfinite⟩, hnodup⟩
  | _ => exact iff_of_true rfl ⟨rfl, rfl⟩

/-! ## The language -/

/-- The parser accepts exactly the documents of a shape, without repeated keys. -/
def AcceptsExactly (shape : Shape) : Prop :=
  ∀ serde : SerdeJson, ∀ bytes raw, serde.fromSlice bytes = some raw →
    ((∃ request, ValidatedRequest.parse serde bytes = .ok request) ↔
      raw.distinct = true ∧ raw.finite = true ∧ shape.accepts raw = true)

/-- The request validator accepts exactly its tables, where `text.format` may also be null and a
reasoning item may have an identifier; the stored value has exactly the fields of the document. -/
theorem parse_accepts : AcceptsExactly acceptedShape ∧
    ∀ (serde : SerdeJson) (bytes : List UInt8) (request : ValidatedRequest),
      ValidatedRequest.parse serde bytes = .ok request →
      ∃ raw, serde.fromSlice bytes = some raw ∧ raw.Stores request.value := by
  constructor
  · intro serde bytes raw hraw
    rw [← and_assoc, ← uniqueValue_isSome]
    change Succeeds (ValidatedRequest.parse serde bytes) ↔ _
    rw [ValidatedRequest.parse, hraw, Option.bind_some, succeeds_bind_iff]
    simp only [okOr_ok_iff]
    cases hv : uniqueValue raw with
    | none => simp
    | some v =>
        simp only [Option.some.injEq, exists_eq_left', Option.isSome_some, true_and]
        rw [ofValue_iff (canonical_of_uniqueValue hv),
          Shape.accepts_of_stores acceptedShape (uniqueValue_stores hv)]
  · intro serde bytes request h
    obtain ⟨_, hvalue⟩ := parse_tracks h
    obtain ⟨raw, hraw, hv⟩ := Option.bind_eq_some_iff.mp hvalue
    exact ⟨raw, hraw, uniqueValue_stores hv⟩

/-- A request whose text control has a null format. -/
def nullFormatValue : Value :=
  .object [("input".toList, .string "hi".toList), ("model".toList, .string "m".toList),
    ("parallel_tool_calls".toList, .bool true), ("store".toList, .bool false),
    ("stream".toList, .bool true), ("text".toList, .object [("format".toList, .null)]),
    ("tool_choice".toList, .string "auto".toList)]

def nullFormatBody : List UInt8 :=
  bytes ("\x7b\"input\":\"hi\",\"model\":\"m\",\"parallel_tool_calls\":true,".toList ++
    "\"store\":false,\"stream\":true,\"text\":\x7b\"format\":null\x7d,".toList ++
    "\"tool_choice\":\"auto\"\x7d".toList)

theorem nullFormat_accepted :
    acceptedShape.accepts nullFormatValue.document = true ∧
      documentedShape.accepts nullFormatValue.document = false := by
  decide

/-- The tables do not allow a null format; the parser accepts it. -/
theorem not_acceptsExactly_documented : ¬AcceptsExactly documentedShape := by
  intro h
  have hparse : (ValidatedRequest.parse (.ofTable [(nullFormatBody, nullFormatValue)] (by simp))
      nullFormatBody).toOption.isSome = true := by
    decide
  have hraw : (SerdeJson.ofTable [(nullFormatBody, nullFormatValue)] (by simp)).fromSlice
      nullFormatBody = some nullFormatValue.document := by
    simp [SerdeJson.ofTable, SerdeJson.ofTables]
  cases hr : ValidatedRequest.parse (.ofTable [(nullFormatBody, nullFormatValue)] (by simp))
      nullFormatBody with
  | error e =>
      rw [hr] at hparse
      cases hparse
  | ok request =>
      have hshape := ((h _ _ _ hraw).mp ⟨request, hr⟩).2.2
      rw [nullFormat_accepted.2] at hshape
      cases hshape

end AgentVeil
