import AgentVeil.Payload

/-!
# The errors of the parser

Parsing a request never fails for want of a target: those errors belong to the reading and the writing
of targets.
-/

namespace AgentVeil

open Rust

/-- The errors of `locate`, `text` and `replace_text`. -/
def PayloadError.ofTarget : PayloadError → Bool
  | .targetMissing | .targetChangedType | .targetIsStructuralLiteral => true
  | _ => false

/-- No error of the call is about a target. -/
abbrev Untargeted {α : Type} (x : Except PayloadError α) : Prop := Raises (·.ofTarget = false) x

/-! ## Checks -/

theorem untargeted_requireString (object : Object) (name : Str) :
    Untargeted (requireString object name) := by
  refine .ite (raises_error ?_) raises_ok
  split
  · rfl
  · rfl

theorem untargeted_requireBool (object : Object) (name : Str) :
    Untargeted (requireBool object name) := by
  refine .ite (raises_error ?_) raises_ok
  split
  · rfl
  · rfl

theorem untargeted_requireOptionalString (object : Object) (name : Str) :
    Untargeted (requireOptionalString object name) := raises_ensure rfl

theorem untargeted_ensureAllowedKeys (object : Object) (allowed : List String)
    {error : Str → PayloadError} (h : ∀ k, (error k).ofTarget = false) :
    Untargeted (ensureAllowedKeys object allowed error) :=
  .forM (fun k => raises_ensure (h k)) _

theorem untargeted_validateOptionalMetadata (object : Object) :
    Untargeted (validateOptionalMetadata object) := by
  unfold validateOptionalMetadata
  split
  · exact raises_ok
  · exact raises_ok
  · exact .bind (raises_okOr rfl) fun metadata =>
      .bind (untargeted_ensureAllowedKeys _ _ fun _ => rfl) fun _ =>
        untargeted_requireOptionalString _ _

theorem untargeted_validateCommonItemFields (object : Object) :
    Untargeted (validateCommonItemFields object) :=
  .bind (Raises.forM (fun _ => untargeted_requireOptionalString _ _) _) fun _ =>
    untargeted_validateOptionalMetadata object

theorem untargeted_ensureTextPart (object : Object) : Untargeted (ensureTextPart object) :=
  .bind (untargeted_ensureAllowedKeys _ _ fun _ => rfl) fun _ => untargeted_requireString _ _

theorem untargeted_validateFormat (format : Object) : Untargeted (validateFormat format) :=
  .bind (untargeted_requireString _ _) fun _ =>
    .ite (untargeted_ensureAllowedKeys _ _ fun _ => rfl) <|
    .ite (.bind (untargeted_ensureAllowedKeys _ _ fun _ => rfl) fun _ =>
      .bind (untargeted_requireBool _ _) fun _ =>
      .bind (untargeted_requireString _ _) fun _ => raises_ensure rfl)
    (raises_error rfl)

theorem untargeted_validateTextControls (object : Object) :
    Untargeted (validateTextControls object) := by
  refine .bind (untargeted_ensureAllowedKeys _ _ fun _ => rfl) fun _ =>
    .bind (untargeted_requireOptionalString _ _) fun _ => ?_
  split
  · exact raises_ok
  · exact raises_ok
  · exact .bind (raises_okOr rfl) fun format => untargeted_validateFormat format

theorem untargeted_validateText (root : Object) : Untargeted (validateText root) := by
  unfold validateText
  split
  · exact raises_ok
  · exact raises_ok
  · exact .bind (raises_okOr rfl) fun text => untargeted_validateTextControls text

theorem untargeted_validateReasoning (root : Object) : Untargeted (validateReasoning root) := by
  unfold validateReasoning
  split
  · exact raises_ok
  · exact raises_ok
  · exact .bind (raises_okOr rfl) fun reasoning =>
      .bind (untargeted_ensureAllowedKeys _ _ fun _ => rfl) fun _ =>
        .forM (fun _ => untargeted_requireOptionalString _ _) _

theorem untargeted_validateStreamOptions (root : Object) :
    Untargeted (validateStreamOptions root) := by
  unfold validateStreamOptions
  split
  · exact raises_ok
  · exact .bind (raises_okOr rfl) fun options =>
      .bind (untargeted_ensureAllowedKeys _ _ fun _ => rfl) fun _ => untargeted_requireString _ _

theorem untargeted_validateInclude (root : Object) : Untargeted (validateInclude root) := by
  unfold validateInclude
  split
  · exact raises_ok
  · exact .bind (raises_okOr rfl) fun _ => .bind (raises_ensure rfl) fun _ => raises_ensure rfl

theorem untargeted_validateTopLevelControls (root : Object) :
    Untargeted (validateTopLevelControls root) :=
  .bind (raises_ensure rfl) fun _ =>
  .bind (untargeted_validateReasoning root) fun _ =>
  .bind (untargeted_validateStreamOptions root) fun _ =>
  .bind (untargeted_validateInclude root) fun _ =>
  .bind (untargeted_requireOptionalString root _) fun _ =>
  .bind (untargeted_requireOptionalString root _) fun _ => untargeted_validateText root

theorem untargeted_validateRoot (root : Object) : Untargeted (validateRoot root) :=
  .bind (untargeted_ensureAllowedKeys _ _ fun _ => rfl) fun _ =>
  .bind (untargeted_requireString root _) fun _ =>
  .bind (untargeted_requireBool root _) fun _ =>
  .bind (raises_ensure rfl) fun _ =>
  .bind (untargeted_requireString root _) fun _ =>
  .bind (untargeted_requireBool root _) fun _ =>
  .bind (raises_ensure rfl) fun _ => untargeted_validateTopLevelControls root

/-! ## Collectors -/

theorem untargeted_collectToolArray (tools : Value) (path : Path) :
    Untargeted (collectToolArray tools path) :=
  .bind (raises_okOr rfl) fun _ => raises_ok

theorem untargeted_partKind (text encrypted media : List String) (type : Option Str) :
    Untargeted (partKind text encrypted media type) :=
  .ite raises_ok <| .ite raises_ok <| .ite (raises_error rfl) (raises_error rfl)

theorem untargeted_collectPart (base : Path) (name : String) (fieldClass : FieldClass)
    {accepts : Option Str → Except PayloadError Bool} (h : ∀ type, Untargeted (accepts type))
    (part : Value × Nat) : Untargeted (collectPart base name fieldClass accepts part) :=
  .bind (raises_okOr rfl) fun _ => .bind (h _) fun _ =>
    .ite (.bind (untargeted_ensureTextPart _) fun _ => raises_ok)
      (.bind (untargeted_ensureAllowedKeys _ _ fun _ => rfl) fun _ =>
        .bind (untargeted_requireString _ _) fun _ => raises_ok)

theorem untargeted_collectMessage (object : Object) (base : Path) (fieldClass : FieldClass) :
    Untargeted (collectMessage object base fieldClass) :=
  .bind (untargeted_ensureAllowedKeys _ _ fun _ => rfl) fun _ =>
  .bind (untargeted_validateCommonItemFields _) fun _ =>
  .bind (untargeted_requireString _ _) fun _ =>
  .bind (raises_okOr rfl) fun _ =>
    .ite raises_ok (.bind (raises_okOr rfl) fun _ =>
      .gather (untargeted_collectPart _ _ _ fun _ => untargeted_partKind _ _ _ _) _)

theorem untargeted_collectAgentMessage (object : Object) (base : Path) :
    Untargeted (collectAgentMessage object base) :=
  .bind (untargeted_ensureAllowedKeys _ _ fun _ => rfl) fun _ =>
  .bind (untargeted_validateCommonItemFields _) fun _ =>
  .bind (untargeted_requireString _ _) fun _ =>
  .bind (untargeted_requireString _ _) fun _ =>
  .bind (raises_okOr rfl) fun _ =>
    .gather (untargeted_collectPart _ _ _ fun _ => untargeted_partKind _ _ _ _) _

theorem untargeted_collectOutputPayload (object : Object) (base : Path) (fieldClass : FieldClass)
    (allowedKeys : List String) :
    Untargeted (collectOutputPayload object base fieldClass allowedKeys) :=
  .bind (untargeted_ensureAllowedKeys _ _ fun _ => rfl) fun _ =>
  .bind (untargeted_validateCommonItemFields _) fun _ =>
  .bind (untargeted_requireString _ _) fun _ =>
  .bind (raises_okOr rfl) fun _ =>
    .ite raises_ok (.bind (raises_okOr rfl) fun _ =>
      .gather (untargeted_collectPart _ _ _ fun _ => untargeted_partKind _ _ _ _) _)

theorem untargeted_collectStringField (object : Object) (base : Path) (name : String)
    (fieldClass : FieldClass) (mode : RewriteMode) (allowedKeys : List String) :
    Untargeted (collectStringField object base name fieldClass mode allowedKeys) :=
  .bind (untargeted_ensureAllowedKeys _ _ fun _ => rfl) fun _ =>
  .bind (untargeted_validateCommonItemFields _) fun _ =>
  .bind (untargeted_requireString _ _) fun _ =>
  .bind (untargeted_requireString _ _) fun _ =>
  .bind (untargeted_requireString _ _) fun _ => raises_ok

theorem untargeted_collectReasoningField (object : Object) (base : Path) (name : String) :
    Untargeted (collectReasoningField object base name) := by
  unfold collectReasoningField
  split
  · exact raises_ok
  · exact raises_ok
  · exact .bind (raises_okOr rfl) fun _ =>
      .gather (untargeted_collectPart _ _ _ fun _ => untargeted_partKind _ _ _ _) _

theorem untargeted_collectReasoning (object : Object) (base : Path) :
    Untargeted (collectReasoning object base) :=
  .bind (untargeted_ensureAllowedKeys _ _ fun _ => rfl) fun _ =>
  .bind (untargeted_validateCommonItemFields _) fun _ =>
  .bind (untargeted_requireOptionalString _ _) fun _ =>
  .bind (untargeted_validateOptionalMetadata _) fun _ =>
    .gather (untargeted_collectReasoningField object base) _

theorem untargeted_collectKnownStructuralItem (object : Object) (base : Path) :
    Untargeted (collectKnownStructuralItem object base) :=
  .bind (untargeted_validateCommonItemFields _) fun _ => raises_ok

theorem untargeted_collectCompaction (object : Object) : Untargeted (collectCompaction object) := by
  have hrest : Untargeted (do
      validateOptionalMetadata object
      Except.ok ([] : List TextTarget)) :=
    .bind (untargeted_validateOptionalMetadata _) fun _ => raises_ok
  exact .bind (untargeted_ensureAllowedKeys _ _ fun _ => rfl) fun _ =>
    .bind (untargeted_validateCommonItemFields _) fun _ =>
    .ite (.bind (raises_ensure rfl) fun _ => hrest) <|
    .ite (.bind (untargeted_requireOptionalString _ _) fun _ => hrest)
      (.bind (untargeted_requireString _ _) fun _ => hrest)

theorem untargeted_collectAdditionalTools (object : Object) (base : Path) :
    Untargeted (collectAdditionalTools object base) :=
  .bind (untargeted_ensureAllowedKeys _ _ fun _ => rfl) fun _ =>
  .bind (untargeted_validateCommonItemFields _) fun _ =>
  .bind (untargeted_requireString _ _) fun _ =>
  .bind (raises_okOr rfl) fun _ => untargeted_collectToolArray _ _

theorem untargeted_collectInputItem (item : Value) (index : Nat) :
    Untargeted (collectInputItem item index) :=
  .bind (raises_okOr rfl) fun object => .bind (raises_okOr rfl) fun _ =>
    .ite (untargeted_collectMessage object _ _) <|
    .ite (untargeted_collectAgentMessage object _) <|
    .ite (untargeted_collectOutputPayload object _ _ _) <|
    .ite (untargeted_collectOutputPayload object _ _ _) <|
    .ite (untargeted_collectStringField object _ _ _ _ _) <|
    .ite (untargeted_collectStringField object _ _ _ _ _) <|
    .ite (untargeted_collectAdditionalTools object _) <|
    .ite (untargeted_collectReasoning object _) <|
    .ite (untargeted_collectKnownStructuralItem object _) <|
    .ite (untargeted_collectCompaction object) <|
    .ite (raises_error rfl) (raises_error rfl)

/-! ## Requests -/

theorem untargeted_collectInstructions (root : Object) :
    Untargeted (collectInstructions root) := by
  unfold collectInstructions
  split
  · exact raises_ok
  · exact .bind (raises_ensure rfl) fun _ => raises_ok

theorem untargeted_collectInput (root : Object) : Untargeted (collectInput root) := by
  refine .bind (raises_okOr rfl) fun input => ?_
  cases input with
  | string s => exact raises_ok
  | array items => exact .gather (fun item => untargeted_collectInputItem _ _) _
  | _ => exact (raises_error rfl)

theorem untargeted_collectTools (root : Object) : Untargeted (collectTools root) := by
  unfold collectTools
  split
  · exact raises_ok
  · exact untargeted_collectToolArray _ _

theorem untargeted_collectClientMetadata (root : Object) :
    Untargeted (collectClientMetadata root) := by
  unfold collectClientMetadata
  split
  · exact raises_ok
  · refine .bind (raises_okOr rfl) fun object => .gather (fun f => ?_) object
    exact .bind (raises_ensure rfl) fun _ => raises_ok

theorem untargeted_collectDeclared (root : Object) : Untargeted (collectDeclared root) :=
  .bind (untargeted_collectInstructions root) fun _ =>
  .bind (untargeted_collectInput root) fun _ =>
  .bind (untargeted_collectTools root) fun _ =>
  .bind (untargeted_collectClientMetadata root) fun _ => raises_ok

theorem untargeted_parse (serde : SerdeJson) (body : List UInt8) :
    Untargeted (ValidatedRequest.parse serde body) :=
  .bind (raises_okOr rfl) fun _ => .bind (raises_okOr rfl) fun root =>
    .bind (untargeted_validateRoot root) fun _ =>
    .bind (untargeted_collectDeclared root) fun _ => raises_ok

end AgentVeil
