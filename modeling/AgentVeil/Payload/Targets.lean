import AgentVeil.Payload

/-!
# The strings that may be rewritten

The leaves of a request whose text is for a reader, said of the tree alone. `textFields` is the
table of the fields of input items that hold such text.
-/

namespace AgentVeil

open Rust
open Rust.Value (asStr)

/-- A text field of an input item: the field itself when it is a string, if `whole`, and the texts
of its parts of the given types. -/
structure TextField where
  itemType : String
  name : String
  whole : Bool
  partTypes : List String
  deriving DecidableEq

def textFields : List TextField :=
  [⟨"message", "content", true, ["input_text", "output_text"]⟩,
   ⟨"agent_message", "content", false, ["input_text"]⟩,
   ⟨"function_call_output", "output", true, ["input_text"]⟩,
   ⟨"custom_tool_call_output", "output", true, ["input_text"]⟩,
   ⟨"function_call", "arguments", true, []⟩,
   ⟨"custom_tool_call", "input", true, []⟩,
   ⟨"reasoning", "summary", false, ["summary_text", "reasoning_text"]⟩,
   ⟨"reasoning", "content", false, ["summary_text", "reasoning_text"]⟩]

/-- The type of the object at a path. -/
def typeAt (v : Value) (p : Path) : Option Str := (v.get? (p ++ [key "type"])).bind asStr

/-- The path leads to text in a field of an input item. -/
def TextField.Holds (f : TextField) (item : Value) (q : Path) : Prop :=
  (f.whole = true ∧ q = [key f.name]) ∨
    ∃ j, q = [key f.name, .index j, key "text"] ∧
      ∃ t ∈ f.partTypes, typeAt item [key f.name, .index j] = some t.toList

/-- The path leads to text in an input item. -/
def ItemText (item : Value) (q : Path) : Prop :=
  ∃ f ∈ textFields, typeAt item [] = some f.itemType.toList ∧ f.Holds item q

/-- A string at this path may be rewritten. -/
inductive RewriteLeaf (root : Value) : Path → Prop where
  | instructions : RewriteLeaf root [key "instructions"]
  | input : RewriteLeaf root [key "input"]
  | item {i : Nat} {item : Value} {q : Path} (at_index : root.get? [key "input", .index i] = some item)
      (text : ItemText item q) : RewriteLeaf root (key "input" :: .index i :: q)

/-- The targets that are string values of the tree. -/
def ValidatedRequest.leafTargets (request : ValidatedRequest) : List TextTarget :=
  request.targets.filter (·.literal.isNone)

/-- The keys among the targets. -/
def ValidatedRequest.literals (request : ValidatedRequest) : List Str :=
  request.targets.filterMap (·.literal)

/-- The targets of an accepted request: each string value once, each key once, and the text for
rewriting where it may be rewritten. -/
structure ValidatedRequest.Tracks (request : ValidatedRequest) : Prop where
  canonical : request.value.Canonical
  paths : (request.leafTargets.map (·.path)).Perm (request.value.leaves.map Prod.fst)
  literals : request.literals.Perm request.value.keys
  literal_mode : ∀ t ∈ request.targets, t.literal.isSome = true → t.mode = .blockOnly
  mode : ∀ t ∈ request.leafTargets, t.mode = .rewrite ↔ RewriteLeaf request.value t.path

end AgentVeil
