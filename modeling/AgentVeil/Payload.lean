import AgentVeil.Domain
import AgentVeil.Rust.Json

/-!
# The validated request

The parser of `payload.rs`. A collector checks one part of the request and gives the targets that
it pushes, in order. `collectUntracked` sees the targets collected so far, and completes them.
-/

namespace AgentVeil

open Rust
open Rust.Value (asStr asBool asArray field hasField)

inductive RewriteMode where
  | rewrite | blockOnly
  deriving DecidableEq, Repr

structure TextTarget where
  path : Path
  literal : Option Str
  fieldClass : FieldClass
  mode : RewriteMode
  deriving DecidableEq

structure ValidatedRequest where
  value : Value
  targets : List TextTarget

inductive PayloadError where
  | json
  | rootMustBeObject
  | missingField (field : Str)
  | invalidFieldType (field : Str)
  | invalidFieldValue (field : Str)
  | streamingRequired
  | unsupportedTopLevelField (key : Str)
  | unsupportedControlField (key : Str)
  | inputItemMustBeObject
  | missingItemType
  | unsupportedInputItem
  | unsupportedItemField (key : Str)
  | contentPartMustBeObject
  | unsupportedContentPart
  | unsupportedContentPartField (key : Str)
  | unsupportedMedia
  | targetMissing
  | targetChangedType
  | targetIsStructuralLiteral
  | serialize
  deriving DecidableEq

def TextTarget.new (path : Path) (fieldClass : FieldClass) (mode : RewriteMode) : TextTarget :=
  ⟨path, none, fieldClass, mode⟩

def TextTarget.structuralLiteral (value : Str) : TextTarget :=
  ⟨[], some value, .structuralMetadata, .blockOnly⟩

/-- `PathSegment::key`. -/
def key (value : String) : PathSegment := .key value.toList

/-! ## Unique keys -/

mutual

/-- `UniqueValueVisitor`: the value of a document, unless an object repeats a key or a number is
not finite. -/
def uniqueValue : Raw → Option Value
  | .unit => some .null
  | .bool b => some (.bool b)
  | .i64 n => some (.number (if n < 0 then .negInt n else .posInt n.toUInt64))
  | .u64 n => some (.number (.posInt n))
  | .f64 bits => if isFiniteF64 bits then some (.number (.float bits)) else none
  | .str s => some (.string s)
  | .seq items => (visitSeq items).map .array
  | .map fields => (visitMap [] [] fields).map .object

def visitSeq : List Raw → Option (List Value)
  | [] => some []
  | raw :: rest => do
      let value ← uniqueValue raw
      let values ← visitSeq rest
      some (value :: values)

def visitMap : List Str → Object → List (Str × Raw) → Option Object
  | _, object, [] => some object
  | keys, object, (key, raw) :: rest =>
      if key ∈ keys then none
      else do
        let value ← uniqueValue raw
        visitMap (key :: keys) (object.orderedInsert (fun a b => a.1 ≤ b.1) (key, value)) rest

end

/-! ## Field checks -/

def requireString (object : Object) (name : Str) : Except PayloadError Unit :=
  if ((field object name).bind asStr).isNone then
    .error (if hasField object name then .invalidFieldType name else .missingField name)
  else .ok ()

def requireBool (object : Object) (name : Str) : Except PayloadError Unit :=
  if ((field object name).bind asBool).isNone then
    .error (if hasField object name then .invalidFieldType name else .missingField name)
  else .ok ()

def requireOptionalString (object : Object) (name : Str) : Except PayloadError Unit :=
  ensure (¬(field object name).any (fun value => !value.isNull && !value.isString) = true)
    (.invalidFieldType name)

def ensureAllowedKeys (object : Object) (allowed : List String) (error : Str → PayloadError) :
    Except PayloadError Unit :=
  (object.map Prod.fst).forM fun k => ensure (k ∈ allowed.map String.toList) (error k)

def passthrough : String := "internal_chat_message_metadata_passthrough"

def validateOptionalMetadata (object : Object) : Except PayloadError Unit :=
  match field object passthrough.toList with
  | none | some .null => .ok ()
  | some metadata => do
      let metadata ← okOr metadata.asObject (.invalidFieldType passthrough.toList)
      ensureAllowedKeys metadata ["turn_id"] .unsupportedItemField
      requireOptionalString metadata "turn_id".toList

def validateCommonItemFields (object : Object) : Except PayloadError Unit := do
  ["id", "type", "role", "phase", "author", "recipient", "call_id", "name", "namespace",
    "status"].forM fun name => requireOptionalString object name.toList
  validateOptionalMetadata object

def ensureTextPart (object : Object) : Except PayloadError Unit := do
  ensureAllowedKeys object ["type", "text"] .unsupportedContentPartField
  requireString object "text".toList

/-- `object.get("type").and_then(Value::as_str)` -/
def typeOf (object : Object) : Option Str := (field object "type".toList).bind asStr

/-! ## Top-level controls -/

def validateReasoning (root : Object) : Except PayloadError Unit :=
  match field root "reasoning".toList with
  | none | some .null => .ok ()
  | some reasoning => do
      let reasoning ← okOr reasoning.asObject (.invalidFieldType "reasoning".toList)
      ensureAllowedKeys reasoning ["effort", "summary", "context"] .unsupportedControlField
      ["effort", "summary", "context"].forM fun name => requireOptionalString reasoning name.toList

def validateStreamOptions (root : Object) : Except PayloadError Unit :=
  match field root "stream_options".toList with
  | none => .ok ()
  | some options => do
      let options ← okOr options.asObject (.invalidFieldType "stream_options".toList)
      ensureAllowedKeys options ["reasoning_summary_delivery"] .unsupportedControlField
      requireString options "reasoning_summary_delivery".toList

def validateInclude (root : Object) : Except PayloadError Unit :=
  match field root "include".toList with
  | none => .ok ()
  | some value => do
      let entries ← okOr value.asArray (.invalidFieldType "include".toList)
      ensure (∀ entry ∈ entries, entry.isString = true) (.invalidFieldType "include entry".toList)
      ensure (¬(entries.length > 4 ∨
        ∃ entry ∈ entries, entry.asStr ≠ some "reasoning.encrypted_content".toList))
        (.invalidFieldValue "include".toList)

def validateFormat (format : Object) : Except PayloadError Unit := do
  requireString format "type".toList
  if typeOf format = some "text".toList then
    ensureAllowedKeys format ["type"] .unsupportedControlField
  else if typeOf format = some "json_schema".toList then do
    ensureAllowedKeys format ["type", "strict", "schema", "name"] .unsupportedControlField
    requireBool format "strict".toList
    requireString format "name".toList
    ensure (hasField format "schema".toList = true) (.missingField "schema".toList)
  else .error (.invalidFieldValue "text.format.type".toList)

def validateTextControls (object : Object) : Except PayloadError Unit := do
  ensureAllowedKeys object ["verbosity", "format"] .unsupportedControlField
  requireOptionalString object "verbosity".toList
  match field object "format".toList with
  | none | some .null => .ok ()
  | some format => do
      let format ← okOr format.asObject (.invalidFieldType "text.format".toList)
      validateFormat format

def validateText (root : Object) : Except PayloadError Unit :=
  match field root "text".toList with
  | none | some .null => .ok ()
  | some text => do
      let text ← okOr text.asObject (.invalidFieldType "text".toList)
      validateTextControls text

def validateTopLevelControls (root : Object) : Except PayloadError Unit := do
  ensure ((field root "tool_choice".toList).bind asStr = some "auto".toList)
    (.invalidFieldValue "tool_choice".toList)
  validateReasoning root
  validateStreamOptions root
  validateInclude root
  requireOptionalString root "service_tier".toList
  requireOptionalString root "prompt_cache_key".toList
  validateText root

/-! ## Collectors -/

mutual

/-- `collect_tool_value`, which never fails. -/
def collectToolValue : Value → Path → Option Str → List TextTarget
  | .string _, path, key =>
      if key ∈ ["name", "type", "namespace", "id", "$id", "$ref"].map (some ·.toList) then []
      else if key = some "description".toList then [.new path .toolDescription .blockOnly]
      else [.new path .toolSchemaText .blockOnly]
  | .array values, path, key => collectToolItems values 0 path key
  | .object object, path, _ => collectToolFields object path
  | .null, _, _ | .bool _, _, _ | .number _, _, _ => []

def collectToolItems : List Value → Nat → Path → Option Str → List TextTarget
  | [], _, _, _ => []
  | child :: rest, index, path, key =>
      collectToolValue child (path ++ [.index index]) key
        ++ collectToolItems rest (index + 1) path key

def collectToolFields : Object → Path → List TextTarget
  | [], _ => []
  | (childKey, child) :: rest, path =>
      collectToolValue child (path ++ [.key childKey]) (some childKey)
        ++ collectToolFields rest path

end

mutual

/-- `collect_all_strings`, which never fails. -/
def collectAllStrings : Value → Path → FieldClass → List TextTarget
  | .string _, path, fieldClass => [.new path fieldClass .blockOnly]
  | .array values, path, fieldClass => collectAllItems values 0 path fieldClass
  | .object object, path, fieldClass => collectAllFields object path fieldClass
  | .null, _, _ | .bool _, _, _ | .number _, _, _ => []

def collectAllItems : List Value → Nat → Path → FieldClass → List TextTarget
  | [], _, _, _ => []
  | child :: rest, index, path, fieldClass =>
      collectAllStrings child (path ++ [.index index]) fieldClass
        ++ collectAllItems rest (index + 1) path fieldClass

def collectAllFields : Object → Path → FieldClass → List TextTarget
  | [], _, _ => []
  | (key, child) :: rest, path, fieldClass =>
      collectAllStrings child (path ++ [.key key]) fieldClass
        ++ collectAllFields rest path fieldClass

end

mutual

/-- `collect_untracked_strings`: every string not tracked yet, and every key. -/
def collectUntracked : Value → Path → List TextTarget → List TextTarget
  | .string _, path, targets =>
      if targets.any (·.path = path) then targets
      else targets ++ [.new path .structuralMetadata .blockOnly]
  | .array values, path, targets => collectUntrackedItems values 0 path targets
  | .object object, path, targets => collectUntrackedFields object path targets
  | .null, _, targets | .bool _, _, targets | .number _, _, targets => targets

def collectUntrackedItems : List Value → Nat → Path → List TextTarget → List TextTarget
  | [], _, _, targets => targets
  | child :: rest, index, path, targets =>
      collectUntrackedItems rest (index + 1) path
        (collectUntracked child (path ++ [.index index]) targets)

def collectUntrackedFields : Object → Path → List TextTarget → List TextTarget
  | [], _, targets => targets
  | (key, child) :: rest, path, targets =>
      collectUntrackedFields rest path
        (collectUntracked child (path ++ [.key key]) (targets ++ [.structuralLiteral key]))

end

def collectToolArray (tools : Value) (path : Path) : Except PayloadError (List TextTarget) := do
  let tools ← okOr tools.asArray (.invalidFieldType "tools".toList)
  .ok (tools.zipIdx.flatMap fun tool => collectToolValue tool.1 (path ++ [.index tool.2]) none)

/-- One part of a list of text parts: `accepts` says what its type makes of it, a text target of
class `fieldClass` under `name`, an encrypted part, or an error. -/
def collectPart (base : Path) (name : String) (fieldClass : FieldClass)
    (accepts : Option Str → Except PayloadError Bool) (part : Value × Nat) :
    Except PayloadError (List TextTarget) := do
  let object ← okOr part.1.asObject .contentPartMustBeObject
  if ← accepts (typeOf object) then do
    ensureTextPart object
    .ok [.new (base ++ [key name, .index part.2, key "text"]) fieldClass .rewrite]
  else do
    ensureAllowedKeys object ["type", "encrypted_content"] .unsupportedContentPartField
    requireString object "encrypted_content".toList
    .ok []

/-- What a part type stands for: text, encrypted content, media or nothing known. -/
def partKind (text encrypted media : List String) (type : Option Str) : Except PayloadError Bool :=
  if type ∈ text.map (some ·.toList) then .ok true
  else if type ∈ encrypted.map (some ·.toList) then .ok false
  else if type ∈ media.map (some ·.toList) then .error .unsupportedMedia
  else .error .unsupportedContentPart

def messagePart := partKind ["input_text", "output_text"] [] ["input_image", "input_file"]
def agentMessagePart := partKind ["input_text"] ["encrypted_content"] []
def outputPart := partKind ["input_text"] ["encrypted_content"] ["input_image"]
def reasoningPart := partKind ["summary_text", "reasoning_text"] [] []

def collectContentArray (content : Value) (base : Path) (fieldClass : FieldClass) :
    Except PayloadError (List TextTarget) := do
  let parts ← okOr content.asArray (.invalidFieldType "content".toList)
  gather (collectPart base "content" fieldClass messagePart) parts.zipIdx

def collectMessage (object : Object) (base : Path) (fieldClass : FieldClass) :
    Except PayloadError (List TextTarget) := do
  ensureAllowedKeys object ["id", "type", "role", "content", "phase", passthrough]
    .unsupportedItemField
  validateCommonItemFields object
  requireString object "role".toList
  let content ← okOr (field object "content".toList) (.missingField "content".toList)
  if content.isString then .ok [.new (base ++ [key "content"]) fieldClass .rewrite]
  else collectContentArray content base fieldClass

def collectAgentMessage (object : Object) (base : Path) : Except PayloadError (List TextTarget) := do
  ensureAllowedKeys object ["id", "type", "author", "recipient", "content", passthrough]
    .unsupportedItemField
  validateCommonItemFields object
  requireString object "author".toList
  requireString object "recipient".toList
  let parts ← okOr ((field object "content".toList).bind asArray)
    (.invalidFieldType "agent_message.content".toList)
  gather (collectPart base "content" .agentMessageText agentMessagePart) parts.zipIdx

def collectOutputPayload (object : Object) (base : Path) (fieldClass : FieldClass)
    (allowedKeys : List String) : Except PayloadError (List TextTarget) := do
  ensureAllowedKeys object allowedKeys .unsupportedItemField
  validateCommonItemFields object
  requireString object "call_id".toList
  let output ← okOr (field object "output".toList) (.missingField "output".toList)
  if output.isString then .ok [.new (base ++ [key "output"]) fieldClass .rewrite]
  else do
    let parts ← okOr output.asArray (.invalidFieldType "output".toList)
    gather (collectPart base "output" fieldClass outputPart) parts.zipIdx

def collectStringField (object : Object) (base : Path) (name : String) (fieldClass : FieldClass)
    (mode : RewriteMode) (allowedKeys : List String) : Except PayloadError (List TextTarget) := do
  ensureAllowedKeys object allowedKeys .unsupportedItemField
  validateCommonItemFields object
  requireString object "call_id".toList
  requireString object "name".toList
  requireString object name.toList
  .ok [.new (base ++ [key name]) fieldClass mode]

/-- The parts under one field of a reasoning item. -/
def collectReasoningField (object : Object) (base : Path) (name : String) :
    Except PayloadError (List TextTarget) :=
  match field object name.toList with
  | none | some .null => .ok []
  | some parts => do
      let parts ← okOr parts.asArray (.invalidFieldType "reasoning text".toList)
      gather (collectPart base name .reasoningSummary reasoningPart) parts.zipIdx

def collectReasoning (object : Object) (base : Path) : Except PayloadError (List TextTarget) := do
  ensureAllowedKeys object ["id", "type", "summary", "content", "encrypted_content", passthrough]
    .unsupportedItemField
  validateCommonItemFields object
  requireOptionalString object "encrypted_content".toList
  validateOptionalMetadata object
  gather (collectReasoningField object base) ["summary", "content"]

def collectKnownStructuralItem (object : Object) (base : Path) :
    Except PayloadError (List TextTarget) := do
  validateCommonItemFields object
  .ok (object.flatMap fun f =>
    if f.1 ∈ ["id", "type", "call_id", "status", passthrough].map String.toList then []
    else collectAllStrings f.2 (base ++ [.key f.1]) .functionArguments)

def collectCompaction (object : Object) : Except PayloadError (List TextTarget) := do
  ensureAllowedKeys object ["id", "type", "encrypted_content", passthrough] .unsupportedItemField
  validateCommonItemFields object
  if typeOf object = some "compaction_trigger".toList then
    ensure (¬hasField object "encrypted_content".toList = true)
      (.invalidFieldType "encrypted_content".toList)
  else if typeOf object = some "context_compaction".toList then
    requireOptionalString object "encrypted_content".toList
  else requireString object "encrypted_content".toList
  validateOptionalMetadata object
  .ok []

def collectAdditionalTools (object : Object) (base : Path) :
    Except PayloadError (List TextTarget) := do
  ensureAllowedKeys object ["id", "type", "role", "tools"] .unsupportedItemField
  validateCommonItemFields object
  requireString object "role".toList
  let tools ← okOr (field object "tools".toList) (.missingField "tools".toList)
  collectToolArray tools (base ++ [key "tools"])

def collectInputItem (item : Value) (index : Nat) : Except PayloadError (List TextTarget) := do
  let object ← okOr item.asObject .inputItemMustBeObject
  let itemType ← okOr (typeOf object) .missingItemType
  let base := [key "input", .index index]
  if itemType = "message".toList then collectMessage object base .messageText
  else if itemType = "agent_message".toList then collectAgentMessage object base
  else if itemType = "function_call_output".toList then
    collectOutputPayload object base .functionOutput ["id", "type", "call_id", "output", passthrough]
  else if itemType = "custom_tool_call_output".toList then
    collectOutputPayload object base .customToolOutput
      ["id", "type", "call_id", "name", "output", passthrough]
  else if itemType = "function_call".toList then
    collectStringField object base "arguments" .functionArguments .rewrite
      ["id", "type", "name", "namespace", "arguments", "call_id", passthrough]
  else if itemType = "custom_tool_call".toList then
    collectStringField object base "input" .customToolInput .rewrite
      ["id", "type", "status", "call_id", "name", "namespace", "input", passthrough]
  else if itemType = "additional_tools".toList then collectAdditionalTools object base
  else if itemType = "reasoning".toList then collectReasoning object base
  else if itemType ∈ ["local_shell_call", "tool_search_call", "tool_search_output",
      "web_search_call"].map String.toList then
    collectKnownStructuralItem object base
  else if itemType ∈ ["compaction", "compaction_summary", "context_compaction",
      "compaction_trigger"].map String.toList then
    collectCompaction object
  else if itemType = "image_generation_call".toList then .error .unsupportedMedia
  else .error .unsupportedInputItem

/-! ## Requests -/

def collectInstructions (root : Object) : Except PayloadError (List TextTarget) :=
  match field root "instructions".toList with
  | none => .ok []
  | some instructions => do
      ensure (instructions.isString = true) (.invalidFieldType "instructions".toList)
      .ok [.new [key "instructions"] .instructions .rewrite]

def collectInput (root : Object) : Except PayloadError (List TextTarget) := do
  let input ← okOr (field root "input".toList) (.missingField "input".toList)
  match input with
  | .string _ => .ok [.new [key "input"] .messageText .rewrite]
  | .array items => gather (fun item => collectInputItem item.1 item.2) items.zipIdx
  | _ => .error (.invalidFieldType "input".toList)

def collectTools (root : Object) : Except PayloadError (List TextTarget) :=
  match field root "tools".toList with
  | none => .ok []
  | some tools => collectToolArray tools [key "tools"]

def collectClientMetadata (root : Object) : Except PayloadError (List TextTarget) :=
  match field root "client_metadata".toList with
  | none => .ok []
  | some metadata => do
      let object ← okOr metadata.asObject (.invalidFieldType "client_metadata".toList)
      gather (fun f => do
        ensure (f.2.isString = true) (.invalidFieldType "client_metadata value".toList)
        .ok [.new [key "client_metadata", .key f.1] .clientMetadata .blockOnly]) object

def topLevelFields : List String :=
  ["model", "instructions", "input", "tools", "tool_choice", "parallel_tool_calls", "reasoning",
    "store", "stream", "stream_options", "include", "service_tier", "prompt_cache_key", "text",
    "client_metadata"]

/-- The checks of `ValidatedRequest::parse` before it collects targets. -/
def validateRoot (root : Object) : Except PayloadError Unit := do
  ensureAllowedKeys root topLevelFields .unsupportedTopLevelField
  requireString root "model".toList
  requireBool root "store".toList
  ensure ((field root "store".toList).bind asBool = some false) (.invalidFieldValue "store".toList)
  requireString root "tool_choice".toList
  requireBool root "parallel_tool_calls".toList
  ensure ((field root "stream".toList).bind asBool = some true) .streamingRequired
  validateTopLevelControls root

/-- The targets that `ValidatedRequest::parse` collects before the final pass. -/
def collectDeclared (root : Object) : Except PayloadError (List TextTarget) := do
  let instructions ← collectInstructions root
  let input ← collectInput root
  let tools ← collectTools root
  let metadata ← collectClientMetadata root
  .ok (instructions ++ input ++ tools ++ metadata)

/-- `ValidatedRequest::parse` on the parsed value. -/
def ValidatedRequest.ofValue (value : Value) : Except PayloadError ValidatedRequest := do
  let root ← okOr value.asObject .rootMustBeObject
  validateRoot root
  let targets ← collectDeclared root
  .ok ⟨value, collectUntracked value [] targets⟩

def ValidatedRequest.parse (serde : SerdeJson) (bytes : List UInt8) :
    Except PayloadError ValidatedRequest := do
  let value ← okOr ((serde.fromSlice bytes).bind uniqueValue) .json
  ofValue value

/-- `locate`: the value at a path. -/
def locate (root : Value) (path : Path) : Except PayloadError Value :=
  okOr (root.get? path) .targetMissing

namespace ValidatedRequest

def text (request : ValidatedRequest) (target : TextTarget) : Except PayloadError Str :=
  match target.literal with
  | some literal => .ok literal
  | none => do
      let value ← locate request.value target.path
      okOr value.asStr .targetChangedType

def replaceText (request : ValidatedRequest) (targetIndex : Nat) (replacement : Str) :
    Except PayloadError ValidatedRequest := do
  let target ← okOr request.targets[targetIndex]? .targetMissing
  ensure (target.literal = none) .targetIsStructuralLiteral
  let value ← locate request.value target.path
  ensure (value.isString = true) .targetChangedType
  let value ← okOr (request.value.set? target.path (.string replacement)) .targetMissing
  .ok { request with value }

def serialize (serde : SerdeJson) (request : ValidatedRequest) :
    Except PayloadError (List UInt8) :=
  okOr (serde.toVec request.value) .serialize

end ValidatedRequest

end AgentVeil
