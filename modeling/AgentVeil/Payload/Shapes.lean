import AgentVeil.Payload
import AgentVeil.Rust.Shapes

/-!
# The shape tables of requests

The tables of `PAYLOAD_MAP.md`: the top-level fields, the items of the input, and the parts of their
contents. They have two parameters, for the two rows where the program accepts more than the tables
say: the shape of `text.format`, and the row of the reasoning items.
-/

namespace AgentVeil

open Rust

def required (name : String) (shape : Shape) : FieldSpec Shape := ⟨name, true, shape⟩

def optional (name : String) (shape : Shape) : FieldSpec Shape := ⟨name, false, shape⟩

def stringOrNull : Shape := .oneOf [.string, .null]

/-- The typed metadata object. -/
def metadata : FieldSpec Shape :=
  optional passthrough (.oneOf [.null, .record [optional "turn_id" stringOrNull] none])

/-! ## Parts -/

def partShape (type text : String) : Shape :=
  .record [required "type" (.literal type), required text .string] none

def partsShape (text encrypted : List String) : Shape :=
  .oneOf (text.map (partShape · "text") ++ encrypted.map (partShape · "encrypted_content"))

def messageParts : Shape := partsShape ["input_text", "output_text"] []
def agentMessageParts : Shape := partsShape ["input_text"] ["encrypted_content"]
def outputParts : Shape := partsShape ["input_text"] ["encrypted_content"]
def reasoningParts : Shape := partsShape ["summary_text", "reasoning_text"] []

def textOrParts (parts : Shape) : Shape := .oneOf [.string, .array parts]
def partsOrNull (parts : Shape) : Shape := .oneOf [.null, .array parts]

/-! ## Items -/

/-- The fields of an item beside its type, and the shape of the fields that are not listed. -/
structure ItemRow where
  type : String
  fields : List (FieldSpec Shape)
  other : Option Shape

def ItemRow.allFields (row : ItemRow) : List (FieldSpec Shape) :=
  required "type" (.literal row.type) :: row.fields

def ItemRow.shape (row : ItemRow) : Shape := .record row.allFields row.other

def messageRow : ItemRow where
  type := "message"
  fields := [required "role" .string, required "content" (textOrParts messageParts),
    optional "id" stringOrNull, optional "phase" stringOrNull, metadata]
  other := none

def agentMessageRow : ItemRow where
  type := "agent_message"
  fields := [required "author" .string, required "recipient" .string,
    required "content" (.array agentMessageParts), optional "id" stringOrNull, metadata]
  other := none

def functionCallOutputRow : ItemRow where
  type := "function_call_output"
  fields := [required "call_id" .string, required "output" (textOrParts outputParts),
    optional "id" stringOrNull, metadata]
  other := none

def customToolCallOutputRow : ItemRow where
  type := "custom_tool_call_output"
  fields := [required "call_id" .string, required "output" (textOrParts outputParts),
    optional "name" stringOrNull, optional "id" stringOrNull, metadata]
  other := none

def functionCallRow : ItemRow where
  type := "function_call"
  fields := [required "name" .string, required "call_id" .string, required "arguments" .string,
    optional "id" stringOrNull, optional "namespace" stringOrNull, metadata]
  other := none

def customToolCallRow : ItemRow where
  type := "custom_tool_call"
  fields := [required "name" .string, required "call_id" .string, required "input" .string,
    optional "id" stringOrNull, optional "status" stringOrNull, optional "namespace" stringOrNull,
    metadata]
  other := none

def additionalToolsRow : ItemRow where
  type := "additional_tools"
  fields := [required "role" .string, required "tools" (.array .any), optional "id" stringOrNull]
  other := none

/-- The row of the table. -/
def documentedReasoningRow : ItemRow where
  type := "reasoning"
  fields := [optional "summary" (partsOrNull reasoningParts),
    optional "content" (partsOrNull reasoningParts), optional "encrypted_content" stringOrNull,
    metadata]
  other := none

/-- The row of the program, with an identifier. -/
def reasoningRow : ItemRow :=
  { documentedReasoningRow with
    fields := optional "id" stringOrNull :: documentedReasoningRow.fields }

/-- The items with arbitrary fields beside the common ones. -/
def structuralRow (type : String) : ItemRow where
  type
  fields := ["id", "role", "phase", "author", "recipient", "call_id", "name", "namespace",
    "status"].map (optional · stringOrNull) ++ [metadata]
  other := some .any

def compactionRow (type : String) (encrypted : List (FieldSpec Shape)) : ItemRow where
  type
  fields := encrypted ++ [optional "id" stringOrNull, metadata]
  other := none

def structuralTypes : List String :=
  ["local_shell_call", "tool_search_call", "tool_search_output", "web_search_call"]

def compactionRows : List ItemRow :=
  [compactionRow "compaction" [required "encrypted_content" .string],
    compactionRow "compaction_summary" [required "encrypted_content" .string],
    compactionRow "context_compaction" [optional "encrypted_content" stringOrNull],
    compactionRow "compaction_trigger" []]

def itemRows (reasoning : ItemRow) : List ItemRow :=
  [messageRow, agentMessageRow, functionCallOutputRow, customToolCallOutputRow, functionCallRow,
    customToolCallRow, additionalToolsRow, reasoning] ++ structuralTypes.map structuralRow
      ++ compactionRows

def itemShape (reasoning : ItemRow) : Shape := .oneOf ((itemRows reasoning).map ItemRow.shape)

/-! ## Requests -/

def formatShape : Shape :=
  .oneOf [.record [required "type" (.literal "text")] none,
    .record [required "type" (.literal "json_schema"), required "strict" .bool,
      required "name" .string, required "schema" .any] none]

def formatOrNull : Shape := .oneOf [.null, formatShape]

def textShape (format : Shape) : Shape :=
  .oneOf [.null, .record [optional "verbosity" stringOrNull, optional "format" format] none]

def reasoningShape : Shape :=
  .oneOf [.null, .record [optional "effort" stringOrNull, optional "summary" stringOrNull,
    optional "context" stringOrNull] none]

def rootFields (format : Shape) (reasoning : ItemRow) : List (FieldSpec Shape) :=
  [required "model" .string, optional "instructions" .string,
    required "input" (textOrParts (itemShape reasoning)), optional "tools" (.array .any),
    required "tool_choice" (.literal "auto"), required "parallel_tool_calls" .bool,
    optional "reasoning" reasoningShape, required "store" (.exactly false),
    required "stream" (.exactly true),
    optional "stream_options" (.record [required "reasoning_summary_delivery" .string] none),
    optional "include" (.atMost 4 (.literal "reasoning.encrypted_content")),
    optional "service_tier" stringOrNull, optional "prompt_cache_key" stringOrNull,
    optional "text" (textShape format), optional "client_metadata" (.record [] (some .string))]

/-- The requests of the tables as they stand. -/
def documentedShape : Shape := .record (rootFields formatShape documentedReasoningRow) none

/-- The requests that the program accepts. -/
def acceptedShape : Shape := .record (rootFields formatOrNull reasoningRow) none

end AgentVeil
