import AgentVeil.Detector.Scanner
import AgentVeil.Ledger
import AgentVeil.Payload

/-!
# The privacy engine

`protect` of `engine.rs` in its stages: the plans of all targets, the verdict, the rewrites and the
rollback. Every stage returns the ledger it leaves behind, also when it fails.
-/

namespace AgentVeil

open Rust

inductive EngineError where
  | oversize
  | payload (e : PayloadError)
  | detector (e : DetectorError)
  | ledger (e : LedgerError)
  | invalidRewriteSpan
  | blockedReachedRewrite
  deriving DecidableEq

structure TargetPlan where
  targetIndex : Nat
  fieldClass : FieldClass
  original : Str
  findings : List (Finding × Action)

structure FindingSummary where
  detector : DetectorId
  dataClass : DataClass
  confidence : Confidence
  action : Action
  sourceField : FieldClass
  count : Nat
  deriving DecidableEq

structure ProtectionSummary where
  scannedFields : Nat
  findings : List FindingSummary
  deriving DecidableEq

inductive ForwardDecision where
  | allowed | rewritten
  deriving DecidableEq, Repr

structure ForwardRequest where
  body : List UInt8
  decision : ForwardDecision
  summary : ProtectionSummary
  deriving DecidableEq

inductive ProtectionOutcome where
  | forward (request : ForwardRequest)
  | blocked (summary : ProtectionSummary)
  deriving DecidableEq

structure PrivacyEngine (R : Type) where
  policy : ValidatedPolicy
  ledger : TokenLedger R

def u32Max : Nat := 2 ^ 32 - 1

/-- `[REDACTED_{label}]` -/
def mask (dataClass : DataClass) : Str :=
  "[REDACTED_".toList ++ dataClass.tokenLabel ++ "]".toList

/-! ## Summaries -/

/-- The step of `summarize` for one finding. -/
def countFinding (summaries : List FindingSummary) (f : FieldClass × Finding × Action) :
    List FindingSummary :=
  match summaries with
  | [] => [⟨f.2.1.detector, f.2.1.dataClass, f.2.1.confidence, f.2.2, f.1, 1⟩]
  | s :: rest =>
      if s.detector = f.2.1.detector ∧ s.dataClass = f.2.1.dataClass ∧
          s.confidence = f.2.1.confidence ∧ s.action = f.2.2 ∧ s.sourceField = f.1 then
        { s with count := min (s.count + 1) u32Max } :: rest
      else s :: countFinding rest f

/-- The order of the summaries: by class, detector and field. -/
def summaryLe (a b : FindingSummary) : Bool :=
  a.dataClass.ctorIdx < b.dataClass.ctorIdx || (a.dataClass = b.dataClass &&
    (a.detector.ctorIdx < b.detector.ctorIdx || (a.detector = b.detector &&
      a.sourceField.ctorIdx ≤ b.sourceField.ctorIdx)))

def summarize (plans : List TargetPlan) : ProtectionSummary where
  scannedFields := min plans.length u32Max
  findings := sortBy summaryLe <|
    (plans.flatMap fun plan => plan.findings.map (plan.fieldClass, ·)).foldl countFinding []

def ProtectionSummary.blocks (summary : ProtectionSummary) : Bool :=
  summary.findings.any (·.action = .block)

def ProtectionSummary.decision (summary : ProtectionSummary) : ForwardDecision :=
  if summary.findings.any fun f => f.action = .mask || f.action = .tokenize then .rewritten
  else .allowed

/-! ## Loops over a state -/

/-- A loop whose steps change a state and may fail; the state of a failure is kept. -/
def loop {σ ε α β : Type} (f : α → σ → Except ε β × σ) : List α → σ → Except ε (List β) × σ
  | [], s => (.ok [], s)
  | a :: rest, s =>
      match f a s with
      | (.error e, s) => (.error e, s)
      | (.ok b, s) =>
          match loop f rest s with
          | (.error e, s) => (.error e, s)
          | (.ok bs, s) => (.ok (b :: bs), s)

namespace PrivacyEngine

variable {R : Type}

/-- `PrivacyEngine::with_random`, over an empty hash map. -/
def withRandom (map : HashMap Token Entry) (policy : ValidatedPolicy) (random : R)
    (ledgerCapacity : Nat) : Except EngineError (PrivacyEngine R) :=
  match TokenLedger.withRandom map ledgerCapacity random with
  | .error e => .error (.ledger e)
  | .ok ledger => .ok ⟨policy, ledger⟩

def scanner (engine : PrivacyEngine R) : Scanner := Scanner.new engine.policy.detectors

/-! ## Plans -/

/-- The action on a finding of a target, from the action of its class. -/
def escalate (mode : RewriteMode) (action : Action) : Action :=
  if mode = .blockOnly ∧ action ≠ .allow then .block else action

def planFinding (policy : ValidatedPolicy) (scope : SessionScope) (nowMs : Nat) (mode : RewriteMode)
    (text : Str) (f : Finding) (ledger : TokenLedger R) :
    Fallible EngineError (Finding × Action) × TokenLedger R :=
  let action := (policy.ruleFor f.dataClass).action
  if f.dataClass = .tokenNamespace then
    match get? text f.sourceSpan with
    | none => (err .invalidRewriteSpan, ledger)
    | some candidate =>
        let (owned, ledger) := ledger.ownsToken scope candidate nowMs
        (.ok (f, escalate mode (if owned then .allow else action)), ledger)
  else (.ok (f, escalate mode action), ledger)

def planTarget (u : Unicode) (policy : ValidatedPolicy) (request : ValidatedRequest)
    (scope : SessionScope) (nowMs : Nat) (target : TextTarget × Nat) (ledger : TokenLedger R) :
    Fallible EngineError TargetPlan × TokenLedger R :=
  match request.text target.1 with
  | .error e => (err (.payload e), ledger)
  | .ok text =>
      match (Scanner.new policy.detectors).scan u text with
      | .error e => (.error (e.mapErr .detector), ledger)
      | .ok found =>
          match loop (planFinding policy scope nowMs target.1.mode text) found ledger with
          | (.error e, ledger) => (.error e, ledger)
          | (.ok findings, ledger) =>
              (.ok ⟨target.2, target.1.fieldClass, text, resolveOverlaps findings⟩, ledger)

/-- The plans of all targets. -/
def plan (u : Unicode) (engine : PrivacyEngine R) (request : ValidatedRequest)
    (scope : SessionScope) (nowMs : Nat) : Fallible EngineError (List TargetPlan) × TokenLedger R :=
  loop (planTarget u engine.policy request scope nowMs) request.targets.zipIdx engine.ledger

/-! ## Rewrites -/

/-- What `apply_rewrites` changes: the request, the ledger and the tokens created. -/
structure Rewriting (R : Type) where
  request : ValidatedRequest
  ledger : TokenLedger R
  created : List Token

def ttlSeconds (policy : ValidatedPolicy) (dataClass : DataClass) : Nat :=
  (policy.ruleFor dataClass).ttlSeconds.getD defaultRestorationTtlSeconds

variable [RandomSource R]

def replacement (policy : ValidatedPolicy) (scope : SessionScope) (nowMs : Nat) (f : Finding)
    (action : Action) (original : Str) (st : Rewriting R) :
    Fallible EngineError Str × Rewriting R :=
  match action with
  | .block => (err .blockedReachedRewrite, st)
  | .mask => (.ok (mask f.dataClass), st)
  | .tokenize =>
      match st.ledger.issueTracked scope f.dataClass original nowMs (ttlSeconds policy f.dataClass)
      with
      | (.error e, ledger) => (err (.ledger e), { st with ledger })
      | (.ok issued, ledger) =>
          (.ok issued.token,
            { st with
              ledger
              created := if issued.created then st.created ++ [issued.token] else st.created })
  | .allow => (.ok [], st)

def rewriteFinding (policy : ValidatedPolicy) (scope : SessionScope) (nowMs : Nat) (original : Str)
    (f : Finding × Action) (rewritten : Str) (st : Rewriting R) :
    Fallible EngineError Str × Rewriting R :=
  if f.2 = .allow then (.ok rewritten, st)
  else if isCharBoundary rewritten f.1.sourceSpan.start = false ∨
      isCharBoundary rewritten f.1.sourceSpan.stop = false then
    (err .invalidRewriteSpan, st)
  else
    match get? original f.1.sourceSpan with
    | none => (err .invalidRewriteSpan, st)
    | some text =>
        match replacement policy scope nowMs f.1 f.2 text st with
        | (.error e, st) => (.error e, st)
        | (.ok w, st) => (orPanic (replaceRange? rewritten f.1.sourceSpan w), st)

def rewriteFindings (policy : ValidatedPolicy) (scope : SessionScope) (nowMs : Nat)
    (original : Str) : List (Finding × Action) → Str → Rewriting R →
      Fallible EngineError Str × Rewriting R
  | [], rewritten, st => (.ok rewritten, st)
  | f :: rest, rewritten, st =>
      match rewriteFinding policy scope nowMs original f rewritten st with
      | (.error e, st) => (.error e, st)
      | (.ok rewritten, st) => rewriteFindings policy scope nowMs original rest rewritten st

/-- The order of `sort_by_key` on `Reverse(start)`. -/
def startGe (a b : Finding × Action) : Bool := b.1.sourceSpan.start ≤ a.1.sourceSpan.start

def rewritePlan (policy : ValidatedPolicy) (scope : SessionScope) (nowMs : Nat) (plan : TargetPlan)
    (st : Rewriting R) : Fallible EngineError Unit × Rewriting R :=
  match rewriteFindings policy scope nowMs plan.original (sortBy startGe plan.findings)
      plan.original st with
  | (.error e, st) => (.error e, st)
  | (.ok rewritten, st) =>
      if rewritten = plan.original then (.ok (), st)
      else
        match st.request.replaceText plan.targetIndex rewritten with
        | .error e => (err (.payload e), st)
        | .ok request => (.ok (), { st with request })

def applyRewrites (policy : ValidatedPolicy) (scope : SessionScope) (nowMs : Nat)
    (plans : List TargetPlan) (st : Rewriting R) : Fallible EngineError (List Unit) × Rewriting R :=
  loop (rewritePlan policy scope nowMs) plans st

/-! ## Protection -/

/-- The part of `protect` after the verdict. -/
def forward (serde : SerdeJson) (policy : ValidatedPolicy) (scope : SessionScope) (nowMs : Nat)
    (request : ValidatedRequest) (plans : List TargetPlan) (ledger : TokenLedger R) :
    Fallible EngineError ProtectionOutcome × TokenLedger R :=
  match applyRewrites policy scope nowMs plans ⟨request, ledger, []⟩ with
  | (.error .panic, st) => (.error .panic, st.ledger)
  | (.error (.err e), st) => (err e, st.ledger.rollbackCreated scope st.created)
  | (.ok _, st) =>
      match st.request.serialize serde with
      | .error e => (err (.payload e), st.ledger.rollbackCreated scope st.created)
      | .ok body =>
          (.ok (.forward ⟨body, (summarize plans).decision, summarize plans⟩), st.ledger)

def protect (u : Unicode) (serde : SerdeJson) (engine : PrivacyEngine R) (body : List UInt8)
    (scope : SessionScope) (nowMs : Nat) :
    Fallible EngineError ProtectionOutcome × PrivacyEngine R :=
  if engine.policy.defaults.maxRequestBytes < body.length then (err .oversize, engine)
  else
    match ValidatedRequest.parse serde body with
    | .error e => (err (.payload e), engine)
    | .ok request =>
        match engine.plan u request scope nowMs with
        | (.error e, ledger) => (.error e, { engine with ledger })
        | (.ok plans, ledger) =>
            if (summarize plans).blocks then
              (.ok (.blocked (summarize plans)), { engine with ledger })
            else
              let (outcome, ledger) :=
                forward serde engine.policy scope nowMs request plans ledger
              (outcome, { engine with ledger })

/-! ## Display -/

omit [RandomSource R]

/-- The loop of `restore_display_text`, from the last candidate to the first; no value is a panic
in `replace_range`. -/
def restoreMatches (scope : SessionScope) (nowMs : Nat) :
    List Match → Str → TokenLedger R → Option Str × TokenLedger R
  | [], restored, ledger => (some restored, ledger)
  | m :: rest, restored, ledger =>
      match ledger.restoreExact scope m.text nowMs with
      | (none, ledger) => restoreMatches scope nowMs rest restored ledger
      | (some value, ledger) =>
          match replaceRange? restored m.range value with
          | none => (none, ledger)
          | some restored => restoreMatches scope nowMs rest restored ledger

def restoreDisplayText (engine : PrivacyEngine R) (scope : SessionScope) (text : Str)
    (nowMs : Nat) : Option Str × PrivacyEngine R :=
  let (restored, ledger) :=
    restoreMatches scope nowMs (Regex.findIter tokenPattern text).reverse text engine.ledger
  (restored, { engine with ledger })

def clearScope (engine : PrivacyEngine R) (scope : SessionScope) : Nat × PrivacyEngine R :=
  let (cleared, ledger) := engine.ledger.clearScope scope
  (cleared, { engine with ledger })

def ledgerEntryCount (engine : PrivacyEngine R) (nowMs : Nat) : Nat × PrivacyEngine R :=
  let (count, ledger) := engine.ledger.entryCount nowMs
  (count, { engine with ledger })

end PrivacyEngine

end AgentVeil
