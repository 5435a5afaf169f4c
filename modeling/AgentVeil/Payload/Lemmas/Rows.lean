import AgentVeil.Payload.Lemmas.Checks

/-!
# The items as rows of the table

An item is accepted exactly when it has the shape of the row of its type.
-/

namespace AgentVeil

open Rust
open Rust.Value (asStr asBool asArray asObject field hasField)

variable {o : Object}

/-! ## Common fields -/

def commonNames : List String :=
  ["id", "type", "role", "phase", "author", "recipient", "call_id", "name", "namespace", "status"]

/-- The fields that every item may have. -/
def commonFields : List (FieldSpec Shape) := commonNames.map (optional · stringOrNull) ++ [metadata]

theorem validateCommonItemFields_iff (ho : (Value.object o).Canonical) :
    validateCommonItemFields o = .ok () ↔ ∀ d ∈ commonFields, d.Holds o := by
  rw [validateCommonItemFields, check_bind_ok_iff, forM_ok_iff, validateOptionalMetadata_iff ho]
  simp only [requireOptionalString_iff, commonFields, commonNames, List.forall_mem_append,
    List.forall_mem_map, List.forall_mem_singleton]

/-- Nothing is asked of an optional field that is not allowed. -/
theorem holds_of_not_allowed {allowed : List String}
    (hkeys : ∀ k ∈ o.map Prod.fst, k ∈ allowed.map String.toList) {d : FieldSpec Shape}
    (hd : d.required = false) (hnot : d.name ∉ allowed) : d.Holds o := by
  unfold FieldSpec.Holds
  cases hv : field o d.name.toList with
  | none => exact hd
  | some v =>
      exfalso
      obtain ⟨f, hf, _⟩ := Option.map_eq_some_iff.mp hv
      have hk : f.1 = d.name.toList := by simpa using List.find?_some hf
      obtain ⟨name, hname, heq⟩ := List.mem_map.mp
        (hkeys f.1 (List.mem_map_of_mem (List.mem_of_find?_eq_some hf)))
      rw [hk] at heq
      exact hnot (String.toList_inj.mp heq ▸ hname)

/-- A field with a stronger shape. -/
theorem holds_weaken {d c : FieldSpec Shape} (h : d.Holds o) (hname : d.name = c.name)
    (hrequired : c.required = false)
    (hshape : ∀ v : Value, d.shape.accepts v.document = true → c.shape.accepts v.document = true) :
    c.Holds o := by
  unfold FieldSpec.Holds at h ⊢
  rw [hname] at h
  cases hv : field o c.name.toList with
  | none => exact hrequired
  | some v =>
      rw [hv] at h
      exact hshape v h

/-- The fields of a row that are common ones are at least as strict. -/
structure RefinesCommon (fields : List (FieldSpec Shape)) : Prop where
  names : ∀ d ∈ fields, d.name ∈ commonNames →
    d.shape = stringOrNull ∨ d.shape = .string ∨ ∃ s, d.shape = .literal s
  metadata : ∀ d ∈ fields, d.name = passthrough → d.shape = metadata.shape

theorem RefinesCommon.weaker {fields : List (FieldSpec Shape)} (h : RefinesCommon fields)
    {d c : FieldSpec Shape} (hd : d ∈ fields) (hc : c ∈ commonFields) (hname : d.name = c.name)
    {v : Value} (hv : d.shape.accepts v.document = true) : c.shape.accepts v.document = true := by
  rcases List.mem_append.mp hc with hc | hc
  · obtain ⟨name, hmem, rfl⟩ := List.mem_map.mp hc
    apply accepts_stringOrNull.mpr
    rcases h.names d hd (hname ▸ hmem) with hshape | hshape | ⟨s, hshape⟩
    · rw [hshape] at hv
      exact accepts_stringOrNull.mp hv
    · rw [hshape] at hv
      exact .inr (Shape.accepts_string.mp hv)
    · rw [hshape] at hv
      exact .inr ⟨_, Shape.accepts_literal.mp hv⟩
  · obtain rfl := List.mem_singleton.mp hc
    rwa [h.metadata d hd hname] at hv

theorem required_common {c : FieldSpec Shape} (hc : c ∈ commonFields) : c.required = false := by
  rcases List.mem_append.mp hc with hc | hc
  · obtain ⟨name, _, rfl⟩ := List.mem_map.mp hc
    rfl
  · obtain rfl := List.mem_singleton.mp hc
    rfl

/-- The common fields of an item with the fields of a row and no others. -/
theorem common_of_fields {fields : List (FieldSpec Shape)} (hfields : RefinesCommon fields)
    (hkeys : ∀ k ∈ o.map Prod.fst, k ∈ (fields.map FieldSpec.name).map String.toList)
    (hholds : ∀ d ∈ fields, d.Holds o) : ∀ c ∈ commonFields, c.Holds o := by
  intro c hc
  by_cases hallowed : c.name ∈ fields.map FieldSpec.name
  · obtain ⟨d, hd, hname⟩ := List.mem_map.mp hallowed
    exact holds_weaken (hholds d hd) hname (required_common hc) fun v => hfields.weaker hd hc hname
  · exact holds_of_not_allowed hkeys (required_common hc) hallowed

theorem common_string (h : ∀ c ∈ commonFields, c.Holds o) {name : String}
    (hname : name ∈ commonNames) : (optional name stringOrNull).Holds o :=
  h _ (List.mem_append_left _ (List.mem_map_of_mem hname))

theorem common_metadata (h : ∀ c ∈ commonFields, c.Holds o) : metadata.Holds o :=
  h _ (List.mem_append_right _ (List.mem_singleton_self _))

theorem allowed_congr {allowed names : List String}
    (h : (∀ a ∈ allowed, a ∈ names) ∧ ∀ n ∈ names, n ∈ allowed) :
    (∀ k ∈ o.map Prod.fst, k ∈ allowed.map String.toList) ↔
      ∀ k ∈ o.map Prod.fst, k ∈ names.map String.toList := by
  refine forall_congr' fun k => imp_congr_right fun _ => ?_
  constructor
  · intro hk
    obtain ⟨a, ha, rfl⟩ := List.mem_map.mp hk
    exact List.mem_map_of_mem (h.1 a ha)
  · intro hk
    obtain ⟨n, hn, rfl⟩ := List.mem_map.mp hk
    exact List.mem_map_of_mem (h.2 n hn)

/-! ## Items -/

theorem nodup_rows : ∀ row ∈ itemRows reasoningRow, (row.allFields.map FieldSpec.name).Nodup := by
  decide

theorem refinesCommon_rows : ∀ row ∈ itemRows reasoningRow, RefinesCommon row.allFields := by
  intro row hrow
  constructor
  · revert row
    simp [itemRows, structuralTypes, compactionRows, ItemRow.allFields, messageRow, agentMessageRow,
      functionCallOutputRow, customToolCallOutputRow, functionCallRow, customToolCallRow,
      additionalToolsRow, reasoningRow, documentedReasoningRow, structuralRow, compactionRow,
      required, optional, commonNames, metadata, passthrough]
  · revert row
    simp [itemRows, structuralTypes, compactionRows, ItemRow.allFields, messageRow, agentMessageRow,
      functionCallOutputRow, customToolCallOutputRow, functionCallRow, customToolCallRow,
      additionalToolsRow, reasoningRow, documentedReasoningRow, structuralRow, compactionRow,
      required, optional, metadata, passthrough]

theorem row_at (i : Nat) {row : ItemRow} (h : (itemRows reasoningRow)[i]? = some row) :
    row ∈ itemRows reasoningRow :=
  List.mem_of_getElem? h

theorem row_of_structural {type : String} (h : type ∈ structuralTypes) :
    structuralRow type ∈ itemRows reasoningRow :=
  List.mem_append_left _ (List.mem_append_right _ (List.mem_map_of_mem h))

theorem row_of_compaction {row : ItemRow} (h : row ∈ compactionRows) :
    row ∈ itemRows reasoningRow :=
  List.mem_append_right _ h

/-- An item of a row without other fields: the checks that every item has, and `rest`. -/
theorem closedItem_iff {row : ItemRow} {allowed : List String} {rest : Prop}
    (hrow : row ∈ itemRows reasoningRow) (hother : row.other = none)
    (hallowed : (∀ a ∈ allowed, a ∈ row.allFields.map FieldSpec.name) ∧
      ∀ n ∈ row.allFields.map FieldSpec.name, n ∈ allowed)
    (ho : (Value.object o).Canonical) (htype : typeOf o = some row.type.toList)
    (hrest : (∀ c ∈ commonFields, c.Holds o) → (rest ↔ ∀ d ∈ row.fields, d.Holds o)) :
    ensureAllowedKeys o allowed .unsupportedItemField = .ok () ∧
        validateCommonItemFields o = .ok () ∧ rest ↔
      row.shape.accepts (Value.object o).document = true := by
  rw [ItemRow.shape, hother, Shape.closed_iff (nodup_rows row hrow) ho.nodup_keys,
    ensureAllowedKeys_iff, allowed_congr hallowed, validateCommonItemFields_iff ho]
  refine and_congr_right fun hkeys => ?_
  constructor
  · rintro ⟨hcommon, h⟩
    exact List.forall_mem_cons.mpr ⟨typeOf_iff.mp htype, (hrest hcommon).mp h⟩
  · intro h
    have hcommon := common_of_fields (refinesCommon_rows row hrow) hkeys h
    exact ⟨hcommon, (hrest hcommon).mpr (List.forall_mem_cons.mp h).2⟩

theorem collectToolArray_iff {v : Value} {path : Path} :
    Succeeds (collectToolArray v path) ↔ (Shape.array .any).accepts v.document = true := by
  rw [collectToolArray, succeeds_bind_iff, Shape.accepts_array]
  simp only [okOr_ok_iff, asArray_eq_some, succeeds_ok, and_true, Shape.accepts_any, implies_true]

section Items

variable {base : Path} {fieldClass : FieldClass} (ho : (Value.object o).Canonical)

include ho

theorem collectMessage_iff (htype : typeOf o = some messageRow.type.toList) :
    Succeeds (collectMessage o base fieldClass) ↔
      messageRow.shape.accepts (Value.object o).document = true := by
  rw [collectMessage, succeeds_check_bind_iff, succeeds_check_bind_iff]
  refine closedItem_iff (row_at 0 rfl) rfl (by decide) ho htype fun hcommon => ?_
  rw [succeeds_check_bind_iff, requireString_iff]
  simp only [messageRow, List.forall_mem_cons, List.not_mem_nil, false_implies, implies_true,
    and_true]
  constructor
  · rintro ⟨hrole, h⟩
    exact ⟨hrole, (required_content_iff ho (by simp)).mp h, common_string hcommon (by decide),
      common_string hcommon (by decide), common_metadata hcommon⟩
  · rintro ⟨hrole, hcontent, _⟩
    exact ⟨hrole, (required_content_iff ho (by simp)).mpr hcontent⟩

theorem collectAgentMessage_iff (htype : typeOf o = some agentMessageRow.type.toList) :
    Succeeds (collectAgentMessage o base) ↔
      agentMessageRow.shape.accepts (Value.object o).document = true := by
  rw [collectAgentMessage, succeeds_check_bind_iff, succeeds_check_bind_iff]
  refine closedItem_iff (row_at 1 rfl) rfl (by decide) ho htype fun hcommon => ?_
  have hcontent : Succeeds (okOr ((field o "content".toList).bind asArray)
        (.invalidFieldType "agent_message.content".toList) >>= fun parts =>
          gather (collectPart base "content" .agentMessageText agentMessagePart) parts.zipIdx) ↔
      (required "content" (.array agentMessageParts)).Holds o := by
    rw [succeeds_bind_iff, required, Shape.holds_required]
    simp only [okOr_ok_iff, Option.bind_eq_some_iff, asArray_eq_some]
    constructor
    · rintro ⟨parts, ⟨_, hfield, rfl⟩, h⟩
      exact ⟨_, hfield, (gather_parts_iff (by decide) (field_canonical ho hfield)).mp h⟩
    · rintro ⟨v, hfield, h⟩
      obtain ⟨parts, rfl, _⟩ := Shape.accepts_array.mp h
      exact ⟨parts, ⟨_, hfield, rfl⟩,
        (gather_parts_iff (by decide) (field_canonical ho hfield)).mpr h⟩
  rw [succeeds_check_bind_iff, succeeds_check_bind_iff, requireString_iff, requireString_iff,
    hcontent]
  simp only [agentMessageRow, List.forall_mem_cons, List.not_mem_nil, false_implies, implies_true,
    and_true]
  constructor
  · rintro ⟨hauthor, hrecipient, h⟩
    exact ⟨hauthor, hrecipient, h, common_string hcommon (by decide), common_metadata hcommon⟩
  · rintro ⟨hauthor, hrecipient, h, _⟩
    exact ⟨hauthor, hrecipient, h⟩

theorem collectOutputPayload_iff {row : ItemRow} {allowed : List String}
    (hrow : row ∈ itemRows reasoningRow) (hother : row.other = none)
    (hallowed : (∀ a ∈ allowed, a ∈ row.allFields.map FieldSpec.name) ∧
      ∀ n ∈ row.allFields.map FieldSpec.name, n ∈ allowed)
    (hfields : ∃ names ⊆ commonNames, row.fields = [required "call_id" .string,
      required "output" (textOrParts outputParts)] ++ names.map (optional · stringOrNull)
        ++ [metadata])
    (htype : typeOf o = some row.type.toList) :
    Succeeds (collectOutputPayload o base fieldClass allowed) ↔
      row.shape.accepts (Value.object o).document = true := by
  rw [collectOutputPayload, succeeds_check_bind_iff, succeeds_check_bind_iff]
  refine closedItem_iff hrow hother hallowed ho htype fun hcommon => ?_
  obtain ⟨names, hnames, hfields⟩ := hfields
  rw [succeeds_check_bind_iff, requireString_iff, hfields]
  simp only [List.forall_mem_append, List.forall_mem_cons, List.forall_mem_map, List.not_mem_nil,
    false_implies, implies_true, and_true]
  constructor
  · rintro ⟨hcall, houtput⟩
    exact ⟨⟨⟨hcall, (required_content_iff ho (by decide)).mp houtput⟩,
      fun n hn => common_string hcommon (hnames hn)⟩, common_metadata hcommon⟩
  · rintro ⟨⟨⟨hcall, houtput⟩, _⟩, _⟩
    exact ⟨hcall, (required_content_iff ho (by decide)).mpr houtput⟩

theorem collectStringField_iff {row : ItemRow} {name : String} {mode : RewriteMode}
    {allowed : List String} (hrow : row ∈ itemRows reasoningRow) (hother : row.other = none)
    (hallowed : (∀ a ∈ allowed, a ∈ row.allFields.map FieldSpec.name) ∧
      ∀ n ∈ row.allFields.map FieldSpec.name, n ∈ allowed)
    (hfields : ∃ names ⊆ commonNames, row.fields = [required "name" .string,
      required "call_id" .string, required name .string] ++
        names.map (optional · stringOrNull) ++ [metadata])
    (htype : typeOf o = some row.type.toList) :
    Succeeds (collectStringField o base name fieldClass mode allowed) ↔
      row.shape.accepts (Value.object o).document = true := by
  rw [collectStringField, succeeds_check_bind_iff, succeeds_check_bind_iff]
  refine closedItem_iff hrow hother hallowed ho htype fun hcommon => ?_
  obtain ⟨names, hnames, hfields⟩ := hfields
  rw [succeeds_check_bind_iff, succeeds_check_bind_iff, succeeds_check_bind_iff, hfields]
  simp only [requireString_iff, succeeds_ok, and_true, List.forall_mem_append,
    List.forall_mem_cons, List.forall_mem_map, List.not_mem_nil, false_implies, implies_true]
  constructor
  · rintro ⟨hcall, hname, htext⟩
    exact ⟨⟨⟨hname, hcall, htext⟩, fun n hn => common_string hcommon (hnames hn)⟩,
      common_metadata hcommon⟩
  · rintro ⟨⟨⟨hname, hcall, htext⟩, _⟩, _⟩
    exact ⟨hcall, hname, htext⟩

theorem collectAdditionalTools_iff (htype : typeOf o = some additionalToolsRow.type.toList) :
    Succeeds (collectAdditionalTools o base) ↔
      additionalToolsRow.shape.accepts (Value.object o).document = true := by
  rw [collectAdditionalTools, succeeds_check_bind_iff, succeeds_check_bind_iff]
  refine closedItem_iff (row_at 6 rfl) rfl (by decide) ho htype fun hcommon => ?_
  rw [succeeds_check_bind_iff, requireString_iff, succeeds_bind_iff]
  simp only [okOr_ok_iff, collectToolArray_iff, additionalToolsRow, List.forall_mem_cons,
    List.not_mem_nil, false_implies, implies_true, and_true]
  rw [required, required, Shape.holds_required, Shape.holds_required]
  constructor
  · rintro ⟨hrole, h⟩
    exact ⟨hrole, h, common_string hcommon (by decide)⟩
  · rintro ⟨hrole, h, _⟩
    exact ⟨hrole, h⟩

theorem collectReasoningField_iff {name : String} :
    Succeeds (collectReasoningField o base name) ↔
      (optional name (partsOrNull reasoningParts)).Holds o := by
  rw [optional, Shape.holds_optional]
  unfold collectReasoningField
  simp only [partsOrNull, Shape.accepts_oneOf, List.exists_mem_cons_iff, List.not_mem_nil,
    false_and, exists_false, or_false, Shape.accepts_null]
  cases hfield : field o name.toList with
  | none => exact iff_of_true (succeeds_ok _) (by rintro _ ⟨⟩)
  | some v =>
      simp only [Option.some.injEq, forall_eq']
      by_cases hnull : v = .null
      · subst hnull
        exact iff_of_true (succeeds_ok _) (.inl rfl)
      · have hresult : Succeeds (okOr v.asArray (.invalidFieldType "reasoning text".toList) >>=
            fun parts => gather (collectPart base name .reasoningSummary reasoningPart)
              parts.zipIdx) ↔ (Shape.array reasoningParts).accepts v.document = true := by
          rw [succeeds_bind_iff]
          simp only [okOr_ok_iff, asArray_eq_some]
          constructor
          · rintro ⟨parts, rfl, h⟩
            exact (gather_parts_iff (by decide) (field_canonical ho hfield)).mp h
          · intro h
            obtain ⟨parts, rfl, _⟩ := Shape.accepts_array.mp h
            exact ⟨parts, rfl, (gather_parts_iff (by decide) (field_canonical ho hfield)).mpr h⟩
        simp only [hnull, false_or, ← hresult]

theorem collectReasoning_iff (htype : typeOf o = some reasoningRow.type.toList) :
    Succeeds (collectReasoning o base) ↔
      reasoningRow.shape.accepts (Value.object o).document = true := by
  rw [collectReasoning, succeeds_check_bind_iff, succeeds_check_bind_iff]
  refine closedItem_iff (row_at 7 rfl) rfl (by decide) ho htype fun hcommon => ?_
  rw [succeeds_check_bind_iff, succeeds_check_bind_iff, requireOptionalString_iff,
    validateOptionalMetadata_iff ho, succeeds_gather_iff]
  simp only [collectReasoningField_iff ho, reasoningRow, documentedReasoningRow,
    List.forall_mem_cons, List.not_mem_nil, false_implies, implies_true, and_true]
  constructor
  · rintro ⟨hencrypted, hmetadata, hsummary, hcontent⟩
    exact ⟨common_string hcommon (by decide), hsummary, hcontent, hencrypted, hmetadata⟩
  · rintro ⟨_, hsummary, hcontent, hencrypted, hmetadata⟩
    exact ⟨hencrypted, hmetadata, hsummary, hcontent⟩

theorem collectKnownStructuralItem_iff {type : String}
    (hmem : type ∈ structuralTypes) (htype : typeOf o = some type.toList) :
    Succeeds (collectKnownStructuralItem o base) ↔
      (structuralRow type).shape.accepts (Value.object o).document = true := by
  rw [collectKnownStructuralItem, succeeds_check_bind_iff, validateCommonItemFields_iff ho,
    ItemRow.shape, Shape.record_iff (nodup_rows _ (row_of_structural hmem)) _ ho.nodup_keys,
    ItemRow.allFields, List.forall_mem_cons, ← typeOf_iff]
  simp only [succeeds_ok, and_true]
  have hother : ∀ f ∈ o, (∃ d ∈ (structuralRow type).allFields, d.name.toList = f.1) ∨
      ∃ s ∈ (structuralRow type).other, s.accepts f.2.document = true :=
    fun f _ => .inr ⟨.any, rfl, rfl⟩
  constructor
  · intro hcommon
    refine ⟨hother, htype, ?_⟩
    simp only [structuralRow, List.forall_mem_append, List.forall_mem_map,
      List.forall_mem_singleton]
    refine ⟨fun name hname => common_string hcommon ?_, common_metadata hcommon⟩
    revert name
    decide
  · rintro ⟨_, _, h⟩
    simp only [structuralRow, List.forall_mem_append, List.forall_mem_map,
      List.forall_mem_singleton] at h
    simp only [commonFields, List.forall_mem_append, List.forall_mem_map,
      List.forall_mem_singleton]
    refine ⟨fun name hname => ?_, h.2⟩
    by_cases ht : name = "type"
    · subst ht
      refine holds_weaken (typeOf_iff.mp htype) rfl rfl fun v hv => ?_
      exact accepts_stringOrNull.mpr (.inr ⟨_, Shape.accepts_literal.mp hv⟩)
    · apply h.1
      revert name
      decide

/-- The compaction items with an encrypted content, required or not. -/
theorem compaction_iff {type : String} {encrypted : FieldSpec Shape} {check : Except PayloadError Unit}
    (hrow : compactionRow type [encrypted] ∈ compactionRows)
    (hname : encrypted.name = "encrypted_content") (htype : typeOf o = some type.toList)
    (hcheck : check = .ok () ↔ encrypted.Holds o) :
    (ensureAllowedKeys o ["id", "type", "encrypted_content", passthrough] .unsupportedItemField
        = .ok () ∧ validateCommonItemFields o = .ok () ∧ check = .ok () ∧
        validateOptionalMetadata o = .ok ()) ↔
      (compactionRow type [encrypted]).shape.accepts (Value.object o).document = true := by
  have hallowed : (∀ a ∈ ["id", "type", "encrypted_content", passthrough],
        a ∈ (compactionRow type [encrypted]).allFields.map FieldSpec.name) ∧
      ∀ n ∈ (compactionRow type [encrypted]).allFields.map FieldSpec.name,
        n ∈ ["id", "type", "encrypted_content", passthrough] := by
    simp [ItemRow.allFields, compactionRow, required, optional, metadata, hname]
  refine closedItem_iff (row_of_compaction hrow) rfl hallowed ho htype fun hcommon => ?_
  rw [hcheck, validateOptionalMetadata_iff ho]
  simp only [compactionRow, List.singleton_append, List.forall_mem_cons, List.not_mem_nil,
    false_implies, implies_true, and_true]
  exact and_congr_right fun _ =>
    (and_iff_right (common_string hcommon (by decide))).symm

theorem compactionTrigger_iff
    (htype : typeOf o = some (compactionRow "compaction_trigger" []).type.toList) :
    (ensureAllowedKeys o ["id", "type", "encrypted_content", passthrough] .unsupportedItemField
        = .ok () ∧ validateCommonItemFields o = .ok () ∧
        ¬hasField o "encrypted_content".toList = true ∧ validateOptionalMetadata o = .ok ()) ↔
      (compactionRow "compaction_trigger" []).shape.accepts (Value.object o).document = true := by
  have hkeys : (∀ k ∈ o.map Prod.fst,
        k ∈ ["id", "type", "encrypted_content", passthrough].map String.toList) ∧
      ¬hasField o "encrypted_content".toList = true ↔
      ∀ k ∈ o.map Prod.fst, k ∈ ["id", "type", passthrough].map String.toList := by
    have hfield : hasField o "encrypted_content".toList = true ↔
        "encrypted_content".toList ∈ o.map Prod.fst := by
      simp only [hasField, field, Option.isSome_map, List.find?_isSome, decide_eq_true_eq,
        List.mem_map]
    rw [hfield]
    constructor
    · rintro ⟨hall, hnot⟩ k hk
      obtain ⟨a, ha, rfl⟩ := List.mem_map.mp (hall k hk)
      apply List.mem_map_of_mem
      have hne : a ≠ "encrypted_content" := fun h => hnot (h ▸ hk)
      simpa [hne] using ha
    · intro hall
      constructor
      · intro k hk
        obtain ⟨a, ha, rfl⟩ := List.mem_map.mp (hall k hk)
        apply List.mem_map_of_mem
        clear hk
        revert a
        decide
      · intro hk
        exact absurd (hall _ hk) (by decide)
  have hitem : (ensureAllowedKeys o ["id", "type", passthrough] .unsupportedItemField = .ok () ∧
        validateCommonItemFields o = .ok () ∧ validateOptionalMetadata o = .ok ()) ↔
      (compactionRow "compaction_trigger" []).shape.accepts (Value.object o).document = true := by
    refine closedItem_iff (row_at 15 rfl) rfl (by decide) ho htype
      fun hcommon => ?_
    rw [validateOptionalMetadata_iff ho]
    simp only [compactionRow, List.nil_append, List.forall_mem_cons, List.not_mem_nil,
      false_implies, implies_true, and_true]
    exact (and_iff_right (common_string hcommon (by decide))).symm
  rw [← hitem, ensureAllowedKeys_iff, ensureAllowedKeys_iff, ← hkeys]
  constructor
  · rintro ⟨hall, hcommon, hnot, hmetadata⟩
    exact ⟨⟨hall, hnot⟩, hcommon, hmetadata⟩
  · rintro ⟨⟨hall, hnot⟩, hcommon, hmetadata⟩
    exact ⟨hall, hcommon, hnot, hmetadata⟩

theorem collectCompaction_iff {row : ItemRow}
    (hrow : row ∈ compactionRows) (htype : typeOf o = some row.type.toList) :
    Succeeds (collectCompaction o) ↔ row.shape.accepts (Value.object o).document = true := by
  rw [collectCompaction, succeeds_check_bind_iff, succeeds_check_bind_iff, htype]
  simp only [compactionRows, List.mem_cons, List.not_mem_nil, or_false] at hrow
  rcases hrow with rfl | rfl | rfl | rfl
  · rw [if_neg (by decide), if_neg (by decide), succeeds_check_bind_iff, succeeds_check_bind_iff,
      and_iff_left (succeeds_ok _)]
    exact compaction_iff ho (List.mem_of_getElem? (i := 0) rfl) rfl htype requireString_iff
  · rw [if_neg (by decide), if_neg (by decide), succeeds_check_bind_iff, succeeds_check_bind_iff,
      and_iff_left (succeeds_ok _)]
    exact compaction_iff ho (List.mem_of_getElem? (i := 1) rfl) rfl htype requireString_iff
  · rw [if_neg (by decide), if_pos (by decide), succeeds_check_bind_iff, succeeds_check_bind_iff,
      and_iff_left (succeeds_ok _)]
    exact compaction_iff ho (List.mem_of_getElem? (i := 2) rfl) rfl htype requireOptionalString_iff
  · rw [if_pos (by decide), succeeds_check_bind_iff, succeeds_check_bind_iff,
      and_iff_left (succeeds_ok _), ensure_ok_iff]
    exact compactionTrigger_iff ho htype

theorem typeOf_of_row {row : ItemRow} (hrow : row ∈ itemRows reasoningRow)
    (h : row.shape.accepts (Value.object o).document = true) :
    typeOf o = some row.type.toList := by
  rw [ItemRow.shape, Shape.record_iff (nodup_rows row hrow) _ ho.nodup_keys, ItemRow.allFields,
    List.forall_mem_cons] at h
  exact typeOf_iff.mpr h.2.1

omit ho in
theorem accepts_itemShape {v : Value} : (itemShape reasoningRow).accepts v.document = true ↔
    ∃ row ∈ itemRows reasoningRow, row.shape.accepts v.document = true := by
  rw [itemShape, Shape.accepts_oneOf]
  constructor
  · rintro ⟨s, hs, h⟩
    obtain ⟨row, hrow, rfl⟩ := List.mem_map.mp hs
    exact ⟨row, hrow, h⟩
  · rintro ⟨row, hrow, h⟩
    exact ⟨_, List.mem_map_of_mem hrow, h⟩

/-- The type of an item selects its row. -/
theorem itemShape_of_type {row : ItemRow} (hrow : row ∈ itemRows reasoningRow)
    (htype : typeOf o = some row.type.toList) :
    (itemShape reasoningRow).accepts (Value.object o).document = true ↔
      row.shape.accepts (Value.object o).document = true := by
  have hnodup : ((itemRows reasoningRow).map ItemRow.type).Nodup := by decide
  rw [accepts_itemShape]
  constructor
  · rintro ⟨row', hrow', h⟩
    have htype' := typeOf_of_row ho hrow' h
    rw [htype, Option.some.injEq, String.toList_inj] at htype'
    rwa [List.inj_on_of_nodup_map hnodup hrow hrow' htype']
  · intro h
    exact ⟨row, hrow, h⟩

theorem collectInputItem_object_iff (i : Nat) : Succeeds (collectInputItem (.object o) i) ↔
    (itemShape reasoningRow).accepts (Value.object o).document = true := by
  rw [collectInputItem, succeeds_bind_iff]
  simp only [okOr_ok_iff, Value.asObject, Option.some.injEq, exists_eq_left']
  rw [succeeds_bind_iff]
  simp only [okOr_ok_iff]
  cases htype : typeOf o with
  | none =>
      refine iff_of_false (by rintro ⟨_, ⟨⟩, _⟩) fun h => ?_
      obtain ⟨row, hrow, h⟩ := accepts_itemShape.mp h
      rw [typeOf_of_row ho hrow h] at htype
      cases htype
  | some itemType =>
      simp only [Option.some.injEq, exists_eq_left']
      -- the row of the type, if there is one
      have hrow : ∀ row ∈ itemRows reasoningRow, itemType = row.type.toList →
          ∀ {result : Except PayloadError (List TextTarget)},
            (Succeeds result ↔ row.shape.accepts (Value.object o).document = true) →
            (Succeeds result ↔ (itemShape reasoningRow).accepts (Value.object o).document = true) :=
        fun row hrow heq result h =>
          h.trans (itemShape_of_type ho hrow (htype.trans (congrArg some heq))).symm
      have hnone : (∀ row ∈ itemRows reasoningRow, itemType ≠ row.type.toList) →
          ¬(itemShape reasoningRow).accepts (Value.object o).document = true := by
        intro hne h
        obtain ⟨row, hrow, h⟩ := accepts_itemShape.mp h
        have := typeOf_of_row ho hrow h
        rw [htype, Option.some.injEq] at this
        exact hne row hrow this
      by_cases h₁ : itemType = "message".toList
      · rw [if_pos h₁]
        exact hrow messageRow (row_at 0 rfl) h₁
          (collectMessage_iff ho (h₁ ▸ htype))
      rw [if_neg h₁]
      by_cases h₂ : itemType = "agent_message".toList
      · rw [if_pos h₂]
        exact hrow agentMessageRow (row_at 1 rfl) h₂
          (collectAgentMessage_iff ho (h₂ ▸ htype))
      rw [if_neg h₂]
      by_cases h₃ : itemType = "function_call_output".toList
      · rw [if_pos h₃]
        exact hrow functionCallOutputRow (row_at 2 rfl) h₃
          (collectOutputPayload_iff ho (row_at 2 rfl) rfl (by decide) ⟨["id"], by decide, rfl⟩
            (h₃ ▸ htype))
      rw [if_neg h₃]
      by_cases h₄ : itemType = "custom_tool_call_output".toList
      · rw [if_pos h₄]
        exact hrow customToolCallOutputRow (row_at 3 rfl) h₄
          (collectOutputPayload_iff ho (row_at 3 rfl) rfl (by decide)
            ⟨["name", "id"], by decide, rfl⟩ (h₄ ▸ htype))
      rw [if_neg h₄]
      by_cases h₅ : itemType = "function_call".toList
      · rw [if_pos h₅]
        exact hrow functionCallRow (row_at 4 rfl) h₅
          (collectStringField_iff ho (row_at 4 rfl) rfl (by decide)
            ⟨["id", "namespace"], by decide, rfl⟩ (h₅ ▸ htype))
      rw [if_neg h₅]
      by_cases h₆ : itemType = "custom_tool_call".toList
      · rw [if_pos h₆]
        exact hrow customToolCallRow (row_at 5 rfl) h₆
          (collectStringField_iff ho (row_at 5 rfl) rfl (by decide)
            ⟨["id", "status", "namespace"], by decide, rfl⟩ (h₆ ▸ htype))
      rw [if_neg h₆]
      by_cases h₇ : itemType = "additional_tools".toList
      · rw [if_pos h₇]
        exact hrow additionalToolsRow (row_at 6 rfl) h₇
          (collectAdditionalTools_iff ho (h₇ ▸ htype))
      rw [if_neg h₇]
      by_cases h₈ : itemType = "reasoning".toList
      · rw [if_pos h₈]
        exact hrow reasoningRow (row_at 7 rfl) h₈
          (collectReasoning_iff ho (h₈ ▸ htype))
      rw [if_neg h₈]
      rw [show ["local_shell_call", "tool_search_call", "tool_search_output", "web_search_call"]
          = structuralTypes from rfl, show ["compaction", "compaction_summary",
            "context_compaction", "compaction_trigger"] = compactionRows.map ItemRow.type from rfl]
      by_cases h₉ : itemType ∈ structuralTypes.map String.toList
      · rw [if_pos h₉]
        obtain ⟨type, hmem, heq⟩ := List.mem_map.mp h₉
        exact hrow (structuralRow type) (row_of_structural hmem) heq.symm
          (collectKnownStructuralItem_iff ho hmem (heq ▸ htype))
      rw [if_neg h₉]
      by_cases h₁₀ : itemType ∈ (compactionRows.map ItemRow.type).map String.toList
      · rw [if_pos h₁₀]
        obtain ⟨type, hmem, heq⟩ := List.mem_map.mp h₁₀
        obtain ⟨row, hcompaction, rfl⟩ := List.mem_map.mp hmem
        exact hrow row (row_of_compaction hcompaction) heq.symm
          (collectCompaction_iff ho hcompaction (heq ▸ htype))
      rw [if_neg h₁₀]
      have hunknown : ∀ row ∈ itemRows reasoningRow, itemType ≠ row.type.toList := by
        intro row hmem heq
        rcases List.mem_append.mp hmem with hmem | hmem
        · rcases List.mem_append.mp hmem with hmem | hmem
          · simp only [List.mem_cons, List.not_mem_nil, or_false] at hmem
            rcases hmem with rfl | rfl | rfl | rfl | rfl | rfl | rfl | rfl
            · exact h₁ heq
            · exact h₂ heq
            · exact h₃ heq
            · exact h₄ heq
            · exact h₅ heq
            · exact h₆ heq
            · exact h₇ heq
            · exact h₈ heq
          · obtain ⟨type, htype', rfl⟩ := List.mem_map.mp hmem
            exact h₉ (List.mem_map.mpr ⟨type, htype', heq.symm⟩)
        · exact h₁₀ (List.mem_map.mpr ⟨row.type, List.mem_map_of_mem hmem, heq.symm⟩)
      refine iff_of_false ?_ (hnone hunknown)
      by_cases himage : itemType = "image_generation_call".toList
      · rw [if_pos himage]
        exact not_succeeds_error _
      · rw [if_neg himage]
        exact not_succeeds_error _

end Items

theorem collectInputItem_iff {item : Value} (hitem : item.Canonical) (i : Nat) :
    Succeeds (collectInputItem item i) ↔
      (itemShape reasoningRow).accepts item.document = true := by
  cases hobject : item.asObject with
  | some o =>
      obtain rfl := asObject_eq_some.mp hobject
      exact collectInputItem_object_iff hitem i
  | none =>
      rw [collectInputItem, hobject]
      refine iff_of_false (not_succeeds_error _) fun h => ?_
      obtain ⟨row, _, h⟩ := accepts_itemShape.mp h
      obtain ⟨o, rfl⟩ := Shape.accepts_record h
      cases hobject

end AgentVeil
