import AgentVeil.Payload.Lemmas.Declared
import AgentVeil.Payload.Theorems

/-!
# Parsing a rewritten request

The parser looks into a string only where it is a control of the request. Other strings may be
replaced: the request is accepted as before, with the same targets in the same order.
-/

namespace AgentVeil

open Rust Rust.Value

/-! ## Kinds of values -/

section Kinds

variable (f : Path → Str → Str) (v : Value) (o : Object) (k : Str)

@[simp] theorem asStr_mapStrings : (mapStrings f v).asStr = v.asStr.map (f []) := by
  cases v with
  | _ => rfl

@[simp] theorem asBool_mapStrings : (mapStrings f v).asBool = v.asBool := by
  cases v with
  | _ => rfl

@[simp] theorem asArray_mapStrings : (mapStrings f v).asArray = v.asArray.map (mapStringsItems f 0) := by
  cases v with
  | _ => rfl

@[simp] theorem asObject_mapStrings : (mapStrings f v).asObject = v.asObject.map (mapStringsFields f) := by
  cases v with
  | _ => rfl

@[simp] theorem isNull_mapStrings : (mapStrings f v).isNull = v.isNull := by
  cases v with
  | _ => rfl

@[simp] theorem isString_mapStrings : (mapStrings f v).isString = v.isString := by
  simp [isString]

@[simp] theorem hasField_mapStringsFields : hasField (mapStringsFields f o) k = hasField o k := by
  simp [hasField]

@[simp] theorem map_fst_mapStringsFields :
    (mapStringsFields f o).map Prod.fst = o.map Prod.fst := by
  rw [mapStringsFields_eq, List.map_map]
  rfl

/-- The string in a field that is not replaced. -/
theorem asStr_field_mapStrings (h : ∀ s, f [.key k] s = s) :
    (field (mapStringsFields f o) k).bind asStr = (field o k).bind asStr := by
  rw [field_mapStringsFields, Option.bind_map]
  cases field o k with
  | none => rfl
  | some v =>
      simp only [Option.bind_some, Function.comp_apply, asStr_mapStrings]
      cases v.asStr with
      | none => rfl
      | some s => exact congrArg some (h s)

@[simp] theorem asBool_field_mapStrings :
    (field (mapStringsFields f o) k).bind asBool = (field o k).bind asBool := by
  rw [field_mapStringsFields, Option.bind_map]
  cases field o k with
  | none => rfl
  | some v => simp

/-! ## Field checks -/

@[simp] theorem requireString_mapStrings :
    requireString (mapStringsFields f o) k = requireString o k := by
  have h : ((field (mapStringsFields f o) k).bind asStr).isNone = ((field o k).bind asStr).isNone := by
    rw [field_mapStringsFields, Option.bind_map]
    cases field o k with
    | none => rfl
    | some v => simp
  simp only [requireString, h, hasField_mapStringsFields]

@[simp] theorem requireBool_mapStrings :
    requireBool (mapStringsFields f o) k = requireBool o k := by
  simp only [requireBool, asBool_field_mapStrings, hasField_mapStringsFields]

@[simp] theorem requireOptionalString_mapStrings :
    requireOptionalString (mapStringsFields f o) k = requireOptionalString o k := by
  have h : (field (mapStringsFields f o) k).any (fun value => !value.isNull && !value.isString)
      = (field o k).any fun value => !value.isNull && !value.isString := by
    rw [field_mapStringsFields]
    cases field o k with
    | none => rfl
    | some v => simp
  simp only [requireOptionalString, h]

@[simp] theorem ensureAllowedKeys_mapStrings (allowed : List String) (error : Str → PayloadError) :
    ensureAllowedKeys (mapStringsFields f o) allowed error = ensureAllowedKeys o allowed error := by
  simp only [ensureAllowedKeys, map_fst_mapStringsFields]

@[simp] theorem validateOptionalMetadata_mapStrings :
    validateOptionalMetadata (mapStringsFields f o) = validateOptionalMetadata o := by
  unfold validateOptionalMetadata
  rw [field_mapStringsFields]
  cases field o passthrough.toList with
  | none => rfl
  | some metadata =>
      cases metadata with
      | object fields =>
          simp only [Option.map_some, mapStrings, asObject, okOr, ok_bind,
            ensureAllowedKeys_mapStrings, requireOptionalString_mapStrings]
      | _ => rfl

@[simp] theorem validateCommonItemFields_mapStrings :
    validateCommonItemFields (mapStringsFields f o) = validateCommonItemFields o := by
  simp only [validateCommonItemFields, requireOptionalString_mapStrings,
    validateOptionalMetadata_mapStrings]

@[simp] theorem ensureTextPart_mapStrings :
    ensureTextPart (mapStringsFields f o) = ensureTextPart o := by
  simp only [ensureTextPart, ensureAllowedKeys_mapStrings, requireString_mapStrings]

theorem typeOf_mapStrings (h : ∀ s, f [key "type"] s = s) :
    typeOf (mapStringsFields f o) = typeOf o := asStr_field_mapStrings f o _ h

end Kinds

/-! ## Walks -/

mutual

theorem collectToolValue_mapStrings (f : Path → Str → Str) : ∀ (v : Value) (p : Path)
    (key : Option Str), collectToolValue (mapStrings f v) p key = collectToolValue v p key
  | .string _, _, _ => rfl
  | .array l, p, key => collectToolItems_mapStrings f l 0 0 p key
  | .object o, p, _ => collectToolFields_mapStrings f o p
  | .null, _, _ | .bool _, _, _ | .number _, _, _ => rfl

theorem collectToolItems_mapStrings (f : Path → Str → Str) : ∀ (l : List Value) (i index : Nat)
    (p : Path) (key : Option Str),
    collectToolItems (mapStringsItems f i l) index p key = collectToolItems l index p key
  | [], _, _, _, _ => rfl
  | v :: l, i, index, p, key => by
      simp only [mapStringsItems, collectToolItems, collectToolValue_mapStrings _ v,
        collectToolItems_mapStrings f l]

theorem collectToolFields_mapStrings (f : Path → Str → Str) : ∀ (o : Object) (p : Path),
    collectToolFields (mapStringsFields f o) p = collectToolFields o p
  | [], _ => rfl
  | (k, v) :: o, p => by
      simp only [mapStringsFields, collectToolFields, collectToolValue_mapStrings _ v,
        collectToolFields_mapStrings f o]

end

mutual

theorem collectAllStrings_mapStrings (f : Path → Str → Str) : ∀ (v : Value) (p : Path)
    (c : FieldClass), collectAllStrings (mapStrings f v) p c = collectAllStrings v p c
  | .string _, _, _ => rfl
  | .array l, p, c => collectAllItems_mapStrings f l 0 0 p c
  | .object o, p, c => collectAllFields_mapStrings f o p c
  | .null, _, _ | .bool _, _, _ | .number _, _, _ => rfl

theorem collectAllItems_mapStrings (f : Path → Str → Str) : ∀ (l : List Value) (i index : Nat)
    (p : Path) (c : FieldClass),
    collectAllItems (mapStringsItems f i l) index p c = collectAllItems l index p c
  | [], _, _, _, _ => rfl
  | v :: l, i, index, p, c => by
      simp only [mapStringsItems, collectAllItems, collectAllStrings_mapStrings _ v,
        collectAllItems_mapStrings f l]

theorem collectAllFields_mapStrings (f : Path → Str → Str) : ∀ (o : Object) (p : Path)
    (c : FieldClass), collectAllFields (mapStringsFields f o) p c = collectAllFields o p c
  | [], _, _ => rfl
  | (k, v) :: o, p, c => by
      simp only [mapStringsFields, collectAllFields, collectAllStrings_mapStrings _ v,
        collectAllFields_mapStrings f o]

end

mutual

theorem collectUntracked_mapStrings (f : Path → Str → Str) : ∀ (v : Value) (p : Path)
    (ts : List TextTarget), collectUntracked (mapStrings f v) p ts = collectUntracked v p ts
  | .string _, _, _ => rfl
  | .array l, p, ts => collectUntrackedItems_mapStrings f l 0 0 p ts
  | .object o, p, ts => collectUntrackedFields_mapStrings f o p ts
  | .null, _, _ | .bool _, _, _ | .number _, _, _ => rfl

theorem collectUntrackedItems_mapStrings (f : Path → Str → Str) : ∀ (l : List Value) (i index : Nat)
    (p : Path) (ts : List TextTarget),
    collectUntrackedItems (mapStringsItems f i l) index p ts = collectUntrackedItems l index p ts
  | [], _, _, _, _ => rfl
  | v :: l, i, index, p, ts => by
      simp only [mapStringsItems, collectUntrackedItems, collectUntracked_mapStrings _ v,
        collectUntrackedItems_mapStrings f l]

theorem collectUntrackedFields_mapStrings (f : Path → Str → Str) : ∀ (o : Object) (p : Path)
    (ts : List TextTarget),
    collectUntrackedFields (mapStringsFields f o) p ts = collectUntrackedFields o p ts
  | [], _, _ => rfl
  | (k, v) :: o, p, ts => by
      simp only [mapStringsFields, collectUntrackedFields, collectUntracked_mapStrings _ v,
        collectUntrackedFields_mapStrings f o]

end

/-! ## Input items -/

theorem gather_mapStringsItems {ε β : Type} {f : Path → Str → Str}
    {F : Value × Nat → Except ε (List β)}
    (h : ∀ v j, F (mapStrings (fun p => f (.index j :: p)) v, j) = F (v, j)) (l : List Value) (i : Nat) :
    gather F ((mapStringsItems f i l).zipIdx i) = gather F (l.zipIdx i) := by
  induction l generalizing i with
  | nil => rfl
  | cons v l ih => simp only [mapStringsItems, List.zipIdx_cons, gather, h, ih]

theorem flatMap_mapStringsItems {β : Type} {f : Path → Str → Str} {F : Value × Nat → List β}
    (h : ∀ v j, F (mapStrings (fun p => f (.index j :: p)) v, j) = F (v, j)) (l : List Value) (i : Nat) :
    ((mapStringsItems f i l).zipIdx i).flatMap F = (l.zipIdx i).flatMap F := by
  induction l generalizing i with
  | nil => rfl
  | cons v l ih => simp only [mapStringsItems, List.zipIdx_cons, List.flatMap_cons, h, ih]

theorem gather_mapStringsFields {ε β : Type} {f : Path → Str → Str}
    {F : Str × Value → Except ε (List β)}
    (h : ∀ k v, F (k, mapStrings (fun p => f (.key k :: p)) v) = F (k, v)) (o : Object) :
    gather F (mapStringsFields f o) = gather F o := by
  induction o with
  | nil => rfl
  | cons e o ih =>
      obtain ⟨k, v⟩ := e
      simp only [mapStringsFields, gather, h, ih]

/-- The types of an item and of its parts are not replaced. -/
structure KeepsTypes (f : Path → Str → Str) : Prop where
  item : ∀ s, f [key "type"] s = s
  part : ∀ name j s, f [key name, .index j, key "type"] s = s

theorem collectPart_mapStrings {f : Path → Str → Str} (hf : ∀ s, f [key "type"] s = s) (base : Path)
    (name : String) (c : FieldClass) (accepts : Option Str → Except PayloadError Bool) (v : Value)
    (j : Nat) :
    collectPart base name c accepts (mapStrings f v, j) = collectPart base name c accepts (v, j) := by
  simp only [collectPart, asObject_mapStrings]
  cases v.asObject with
  | none => rfl
  | some o =>
      simp only [Option.map_some, okOr, ok_bind, typeOf_mapStrings f o hf, ensureTextPart_mapStrings,
        ensureAllowedKeys_mapStrings, requireString_mapStrings]

section Items

variable {f : Path → Str → Str} (hf : KeepsTypes f) (o : Object) (base : Path)

include hf

/-- The parts below a field. -/
theorem gather_collectPart_mapStrings (name : String) (c : FieldClass)
    (accepts : Option Str → Except PayloadError Bool) (l : List Value) :
    gather (collectPart base name c accepts)
        (mapStringsItems (fun p => f (key name :: p)) 0 l).zipIdx
      = gather (collectPart base name c accepts) l.zipIdx :=
  gather_mapStringsItems
    (fun v j => collectPart_mapStrings (fun s => hf.part name j s) base name c accepts v j) l 0

theorem collectMessage_mapStrings (c : FieldClass) :
    collectMessage (mapStringsFields f o) base c = collectMessage o base c := by
  simp only [collectMessage, ensureAllowedKeys_mapStrings, validateCommonItemFields_mapStrings,
    requireString_mapStrings, field_mapStringsFields]
  cases field o "content".toList with
  | none => rfl
  | some content =>
      simp only [Option.map_some, okOr, ok_bind, isString_mapStrings, collectContentArray,
        asArray_mapStrings]
      cases content.asArray with
      | none => rfl
      | some parts =>
          simp only [Option.map_some, ok_bind]
          rw [← gather_collectPart_mapStrings hf base "content" c messagePart parts]
          rfl

theorem collectAgentMessage_mapStrings :
    collectAgentMessage (mapStringsFields f o) base = collectAgentMessage o base := by
  simp only [collectAgentMessage, ensureAllowedKeys_mapStrings, validateCommonItemFields_mapStrings,
    requireString_mapStrings, field_mapStringsFields]
  cases field o "content".toList with
  | none => rfl
  | some content =>
      simp only [Option.map_some, Option.bind_some, asArray_mapStrings]
      cases content.asArray with
      | none => rfl
      | some parts =>
          simp only [Option.map_some, okOr, ok_bind]
          rw [← gather_collectPart_mapStrings hf base "content" .agentMessageText agentMessagePart
            parts]
          rfl

theorem collectOutputPayload_mapStrings (c : FieldClass) (allowed : List String) :
    collectOutputPayload (mapStringsFields f o) base c allowed
      = collectOutputPayload o base c allowed := by
  simp only [collectOutputPayload, ensureAllowedKeys_mapStrings, validateCommonItemFields_mapStrings,
    requireString_mapStrings, field_mapStringsFields]
  cases field o "output".toList with
  | none => rfl
  | some output =>
      simp only [Option.map_some, okOr, ok_bind, isString_mapStrings, asArray_mapStrings]
      cases output.asArray with
      | none => rfl
      | some parts =>
          simp only [Option.map_some, ok_bind]
          rw [← gather_collectPart_mapStrings hf base "output" c outputPart parts]
          rfl

theorem collectReasoningField_mapStrings (name : String) :
    collectReasoningField (mapStringsFields f o) base name = collectReasoningField o base name := by
  simp only [collectReasoningField, field_mapStringsFields]
  cases field o name.toList with
  | none => rfl
  | some parts =>
      cases parts with
      | array l =>
          simp only [Option.map_some, mapStrings, asArray, okOr, ok_bind]
          rw [← gather_collectPart_mapStrings hf base name .reasoningSummary reasoningPart l]
          rfl
      | _ => rfl

theorem collectReasoning_mapStrings :
    collectReasoning (mapStringsFields f o) base = collectReasoning o base := by
  have hfield : collectReasoningField (mapStringsFields f o) base = collectReasoningField o base :=
    funext fun name => collectReasoningField_mapStrings hf o base name
  simp only [collectReasoning, ensureAllowedKeys_mapStrings, validateCommonItemFields_mapStrings,
    requireOptionalString_mapStrings, validateOptionalMetadata_mapStrings, hfield]

theorem collectCompaction_mapStrings : collectCompaction (mapStringsFields f o) = collectCompaction o := by
  simp only [collectCompaction, ensureAllowedKeys_mapStrings, validateCommonItemFields_mapStrings,
    requireOptionalString_mapStrings, requireString_mapStrings, validateOptionalMetadata_mapStrings,
    hasField_mapStringsFields, typeOf_mapStrings f o hf.item]

omit hf

theorem collectStringField_mapStrings (name : String) (c : FieldClass) (mode : RewriteMode)
    (allowed : List String) :
    collectStringField (mapStringsFields f o) base name c mode allowed
      = collectStringField o base name c mode allowed := by
  simp only [collectStringField, ensureAllowedKeys_mapStrings, validateCommonItemFields_mapStrings,
    requireString_mapStrings]

theorem collectKnownStructuralItem_mapStrings :
    collectKnownStructuralItem (mapStringsFields f o) base = collectKnownStructuralItem o base := by
  simp only [collectKnownStructuralItem, validateCommonItemFields_mapStrings]
  simp only [mapStringsFields_eq, List.flatMap_map, collectAllStrings_mapStrings]

theorem collectToolArray_mapStrings (v : Value) :
    collectToolArray (mapStrings f v) base = collectToolArray v base := by
  simp only [collectToolArray, asArray_mapStrings]
  cases v.asArray with
  | none => rfl
  | some l =>
      simp only [Option.map_some, okOr, ok_bind]
      congr 1
      exact flatMap_mapStringsItems (fun w j => collectToolValue_mapStrings _ w _ _) l 0

theorem collectAdditionalTools_mapStrings :
    collectAdditionalTools (mapStringsFields f o) base = collectAdditionalTools o base := by
  simp only [collectAdditionalTools, ensureAllowedKeys_mapStrings,
    validateCommonItemFields_mapStrings, requireString_mapStrings, field_mapStringsFields]
  cases field o "tools".toList with
  | none => rfl
  | some tools => simp only [Option.map_some, okOr, ok_bind, collectToolArray_mapStrings]

include hf

theorem collectInputItem_mapStrings (v : Value) (i : Nat) :
    collectInputItem (mapStrings f v) i = collectInputItem v i := by
  simp only [collectInputItem, asObject_mapStrings]
  cases v.asObject with
  | none => rfl
  | some o =>
      simp only [Option.map_some, okOr, ok_bind, typeOf_mapStrings f o hf.item,
        collectMessage_mapStrings hf, collectAgentMessage_mapStrings hf,
        collectOutputPayload_mapStrings hf, collectStringField_mapStrings,
        collectAdditionalTools_mapStrings, collectReasoning_mapStrings hf,
        collectKnownStructuralItem_mapStrings, collectCompaction_mapStrings hf]

end Items

/-! ## Requests -/

/-- The controls that the parser compares are not replaced. -/
structure KeepsControls (f : Path → Str → Str) : Prop where
  toolChoice : ∀ s, f [key "tool_choice"] s = s
  included : ∀ j s, f [key "include", .index j] s = s
  format : ∀ s, f [key "text", key "format", key "type"] s = s
  items : ∀ i, KeepsTypes fun p => f (key "input" :: .index i :: p)

/-- The strings of a list that are not replaced. -/
theorem mapStringsItems_eq_self {l : List Value} (hl : ∀ v ∈ l, v.isString = true)
    {f : Path → Str → Str} (i : Nat) (hf : ∀ j s, f [.index j] s = s) : mapStringsItems f i l = l := by
  induction l generalizing i with
  | nil => rfl
  | cons v l ih =>
      obtain ⟨hv, hl'⟩ := List.forall_mem_cons.mp hl
      obtain ⟨s, rfl⟩ := isString_iff.mp hv
      rw [mapStringsItems, ih hl', mapStrings, hf]

theorem isString_mapStringsItems (f : Path → Str → Str) (i : Nat) (l : List Value) :
    (∀ v ∈ mapStringsItems f i l, v.isString = true) ↔ ∀ v ∈ l, v.isString = true := by
  induction l generalizing i with
  | nil => simp [mapStringsItems]
  | cons v l ih => simp only [mapStringsItems, List.forall_mem_cons, isString_mapStrings, ih]

section Controls

variable (root : Object)

theorem validateReasoning_mapStrings (f : Path → Str → Str) :
    validateReasoning (mapStringsFields f root) = validateReasoning root := by
  simp only [validateReasoning, field_mapStringsFields]
  cases field root "reasoning".toList with
  | none => rfl
  | some v =>
      cases v with
      | object o =>
          simp only [Option.map_some, mapStrings, asObject, okOr, ok_bind,
            ensureAllowedKeys_mapStrings, requireOptionalString_mapStrings]
      | _ => rfl

theorem validateStreamOptions_mapStrings (f : Path → Str → Str) :
    validateStreamOptions (mapStringsFields f root) = validateStreamOptions root := by
  simp only [validateStreamOptions, field_mapStringsFields]
  cases field root "stream_options".toList with
  | none => rfl
  | some v =>
      simp only [Option.map_some, asObject_mapStrings]
      cases v.asObject with
      | none => rfl
      | some o =>
          simp only [Option.map_some, okOr, ok_bind, ensureAllowedKeys_mapStrings,
            requireString_mapStrings]

variable {f : Path → Str → Str} (hf : KeepsControls f)

include hf

theorem validateInclude_mapStrings :
    validateInclude (mapStringsFields f root) = validateInclude root := by
  simp only [validateInclude, field_mapStringsFields]
  cases field root "include".toList with
  | none => rfl
  | some v =>
      simp only [Option.map_some, asArray_mapStrings]
      cases v.asArray with
      | none => rfl
      | some l =>
          simp only [Option.map_some, okOr, ok_bind]
          by_cases hl : ∀ entry ∈ l, entry.isString = true
          · rw [mapStringsItems_eq_self (f := fun p => f (.key "include".toList :: p)) hl 0 hf.included]
          · have hl' := mt (isString_mapStringsItems (fun p => f (.key "include".toList :: p)) 0 l).mp hl
            simp only [ensure, if_neg hl', if_neg hl]
            rfl

theorem validateFormat_mapStrings (format : Object) :
    validateFormat (mapStringsFields (fun p => f (key "text" :: key "format" :: p)) format)
      = validateFormat format := by
  have htype := typeOf_mapStrings (fun p => f (key "text" :: key "format" :: p)) format hf.format
  simp only [validateFormat, requireString_mapStrings, htype,
    ensureAllowedKeys_mapStrings, requireBool_mapStrings, hasField_mapStringsFields]

theorem validateText_mapStrings : validateText (mapStringsFields f root) = validateText root := by
  simp only [validateText, field_mapStringsFields]
  cases field root "text".toList with
  | none => rfl
  | some v =>
      cases v with
      | object o =>
          simp only [Option.map_some, mapStrings, asObject, okOr, ok_bind, validateTextControls,
            ensureAllowedKeys_mapStrings, requireOptionalString_mapStrings, field_mapStringsFields]
          cases field o "format".toList with
          | none => rfl
          | some w =>
              cases w with
              | object format =>
                  simp only [Option.map_some, mapStrings, ok_bind]
                  rw [← validateFormat_mapStrings hf format]
                  rfl
              | _ => rfl
      | _ => rfl

theorem validateRoot_mapStrings : validateRoot (mapStringsFields f root) = validateRoot root := by
  simp only [validateRoot, validateTopLevelControls, ensureAllowedKeys_mapStrings,
    requireString_mapStrings, requireBool_mapStrings, requireOptionalString_mapStrings,
    asBool_field_mapStrings, asStr_field_mapStrings f root _ hf.toolChoice,
    validateReasoning_mapStrings, validateStreamOptions_mapStrings,
    validateInclude_mapStrings root hf, validateText_mapStrings root hf]

theorem collectInput_mapStrings : collectInput (mapStringsFields f root) = collectInput root := by
  simp only [collectInput, field_mapStringsFields]
  cases field root "input".toList with
  | none => rfl
  | some input =>
      cases input with
      | array items =>
          simp only [Option.map_some, okOr, ok_bind, mapStrings]
          exact gather_mapStringsItems
            (fun v j => collectInputItem_mapStrings (hf.items j) v j) items 0
      | _ => rfl

theorem collectDeclared_mapStrings :
    collectDeclared (mapStringsFields f root) = collectDeclared root := by
  have hinstructions : collectInstructions (mapStringsFields f root) = collectInstructions root := by
    simp only [collectInstructions, field_mapStringsFields]
    cases field root "instructions".toList with
    | none => rfl
    | some v => simp only [Option.map_some, isString_mapStrings]
  have htools : collectTools (mapStringsFields f root) = collectTools root := by
    simp only [collectTools, field_mapStringsFields]
    cases field root "tools".toList with
    | none => rfl
    | some v => simp only [Option.map_some, collectToolArray_mapStrings]
  have hmetadata : collectClientMetadata (mapStringsFields f root) = collectClientMetadata root := by
    simp only [collectClientMetadata, field_mapStringsFields]
    cases field root "client_metadata".toList with
    | none => rfl
    | some v =>
        simp only [Option.map_some, asObject_mapStrings]
        cases v.asObject with
        | none => rfl
        | some o =>
            simp only [Option.map_some, okOr, ok_bind]
            exact gather_mapStringsFields (fun k w => by simp only [isString_mapStrings]) o
  simp only [collectDeclared, hinstructions, collectInput_mapStrings root hf, htools, hmetadata]

end Controls

/-- A request with other strings is accepted as before, with the same targets. -/
theorem ofValue_mapStrings {f : Path → Str → Str} (hf : KeepsControls f) (v : Value) :
    ValidatedRequest.ofValue (mapStrings f v)
      = (ValidatedRequest.ofValue v).map fun request =>
          { request with value := mapStrings f request.value } := by
  cases v with
  | object root =>
      simp only [ValidatedRequest.ofValue, mapStrings, asObject, okOr, ok_bind,
        validateRoot_mapStrings root hf, collectDeclared_mapStrings root hf]
      cases validateRoot root with
      | error e => rfl
      | ok _ =>
          cases collectDeclared root with
          | error e => rfl
          | ok ts =>
              simp only [ok_bind, Except.map, mapStrings]
              congr 2
              exact collectUntracked_mapStrings f (.object root) [] ts
  | _ => rfl

/-- The type of an item or of a part is no text of the item. -/
theorem not_itemText_type (item : Value) : ¬ItemText item [key "type"] ∧
    ∀ name j, ¬ItemText item [key name, .index j, key "type"] := by
  have hname : ∀ f ∈ textFields, key "type" ≠ key f.name := by decide
  have htext : key "type" ≠ key "text" := by decide
  constructor
  · rintro ⟨f, hmem, -, ⟨-, hq⟩ | ⟨j, hq, -⟩⟩
    · exact hname f hmem (List.cons.inj hq).1
    · cases (List.cons.inj hq).2
  · rintro name j ⟨f, -, -, ⟨-, hq⟩ | ⟨j', hq, -⟩⟩
    · cases (List.cons.inj hq).2
    · exact htext (List.cons.inj (List.cons.inj (List.cons.inj hq).2).2).1

/-- Strings that may be rewritten are no controls. -/
theorem keepsControls_of_rewriteLeaf {root : Value} {f : Path → Str → Str}
    (hf : ∀ q, ¬RewriteLeaf root q → ∀ s, f q s = s) : KeepsControls f := by
  have hkey : ∀ name ∈ ["tool_choice", "include", "text"],
      key name ≠ key "instructions" ∧ key name ≠ key "input" := by decide
  have hroot : ∀ name ∈ ["tool_choice", "include", "text"], ∀ q,
      ¬RewriteLeaf root (key name :: q) := fun name hname q => by
    simp [rewriteLeaf_key_iff, hkey name hname]
  have hitem : ∀ i q, (∀ item, ¬ItemText item q) → ¬RewriteLeaf root (key "input" :: .index i :: q) :=
    fun i q hq h => by
      simp only [rewriteLeaf_key_iff, reduceCtorEq, and_false, false_or, true_and] at h
      obtain ⟨_, item, _, heq, _, ht⟩ := h
      rw [(List.cons.inj heq).2] at hq
      exact hq item ht
  exact
    { toolChoice := hf _ (hroot _ (by simp) _)
      included := fun _ => hf _ (hroot _ (by simp) _)
      format := hf _ (hroot _ (by simp) _)
      items := fun i =>
        { item := hf _ (hitem i _ fun item => (not_itemText_type item).1)
          part := fun name j => hf _ (hitem i _ fun item => (not_itemText_type item).2 name j) } }

theorem ofValue_value {v : Value} {request : ValidatedRequest}
    (h : ValidatedRequest.ofValue v = .ok request) : request.value = v := by
  simp only [ValidatedRequest.ofValue, bind_ok_iff, Except.ok.injEq] at h
  obtain ⟨_, _, _, _, _, _, rfl⟩ := h
  rfl

/-- A request whose text for rewriting is replaced is accepted as before, with the same targets. -/
theorem ofValue_rewritten {v : Value} {request : ValidatedRequest}
    (h : ValidatedRequest.ofValue v = .ok request) {f : Path → Str → Str}
    (hf : ∀ q s, (q, s) ∈ v.leaves → ¬RewriteLeaf v q → f q s = s) :
    ValidatedRequest.ofValue (mapStrings f v) = .ok { request with value := mapStrings f v } := by
  classical
  have hmap : mapStrings f v = mapStrings (fun q s => if RewriteLeaf v q then f q s else s) v := by
    refine mapStrings_congr v fun q hq => ?_
    by_cases hr : RewriteLeaf v q.1
    · simp only [if_pos hr]
    · simp only [if_neg hr, hf q.1 q.2 hq hr]
  have hkeeps : KeepsControls fun q s => if RewriteLeaf v q then f q s else s :=
    keepsControls_of_rewriteLeaf fun q hq s => if_neg hq
  rw [hmap, ofValue_mapStrings hkeeps, h, Except.map, ofValue_value h]

end AgentVeil
