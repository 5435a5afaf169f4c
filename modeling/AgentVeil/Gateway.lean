import AgentVeil.Audit
import AgentVeil.Engine
import AgentVeil.Rust.Tasks
import AgentVeil.Rust.Utf8

/-!
# The gateway

The handler `responses` of `gateway.rs` as a task. A turn ends where the handler reads or writes what
other requests share, or waits: at the health flag, the sequence counter, the engine, the audit file,
the dashboard and the upstream.
-/

namespace AgentVeil

open Rust

/-! ## Headers -/

/-- The headers of a request in order, with lower-case names. -/
abbrev HeaderMap := List (Str × List UInt8)

def HeaderMap.getAll (headers : HeaderMap) (name : String) : List (List UInt8) :=
  headers.filterMap fun h => if h.1 = name.toList then some h.2 else none

def HeaderMap.get (headers : HeaderMap) (name : String) : Option (List UInt8) :=
  (headers.getAll name).head?

/-- `HeaderValue::to_str`: visible ASCII and tabs only. -/
def headerText (value : List UInt8) : Option Str :=
  if value.all (fun b => b = 9 || 32 ≤ b && b < 127) then
    some (value.map fun b => Char.ofNat b.toNat)
  else none

def eqIgnoreAsciiCase (a b : Str) : Bool := a.map toAsciiLowercase = b.map toAsciiLowercase

def localSessionHeader : String := "x-agentveil-session"

def hasSingleAuthorization (headers : HeaderMap) : Bool :=
  match headers.getAll "authorization" with
  | [value] => (headerText value).any fun value =>
      "Bearer ".toList.isPrefixOf value && len "Bearer ".toList < len value
  | _ => false

def contentTypeIsJson (headers : HeaderMap) : Bool :=
  ((headers.get "content-type").bind headerText).any fun value =>
    eqIgnoreAsciiCase (trim (value.takeWhile (· ≠ ';'))) "application/json".toList

def hasUnsupportedContentEncoding (headers : HeaderMap) : Bool :=
  ((headers.get "content-encoding").bind headerText).any fun value =>
    !eqIgnoreAsciiCase value "identity".toList

/-! ## Configuration -/

/-- The text of a URL. -/
abbrev Url := Str

/-- The URL crate. -/
structure UrlParser where
  parse : Str → Option Url
  join : Url → Str → Option Url
  setQuery : Url → Str → Url

inductive UpstreamKind where
  | openAi
  | loopbackTest (base : Url)
  deriving DecidableEq, Repr

def UpstreamKind.isOpenai : UpstreamKind → Bool
  | openAi => true
  | loopbackTest _ => false

inductive RestorationMode where
  | disabled | syntheticDisplayText | syntheticDisplayDeltaOnly
  deriving DecidableEq, Repr

/-- The part of `GatewayState` that never changes, with the crates it calls. -/
structure GatewayState where
  unicode : Unicode
  serde : SerdeJson
  toVec : AuditEvent → Option (List UInt8)
  urls : UrlParser
  scope : SessionScope
  expectedLocalToken : Str
  upstream : UpstreamKind
  restorationMode : RestorationMode
  sessionPseudonym : Str
  policyName : Str
  policyHash : Str

def version : Str := "0.1.6".toList
def chatgptResponsesUrl : Str := "https://chatgpt.com/backend-api/codex/responses".toList
def chatgptModelsUrl : Str := "https://chatgpt.com/backend-api/codex/models".toList
def apiResponsesUrl : Str := "https://api.openai.com/v1/responses".toList
def apiModelsUrl : Str := "https://api.openai.com/v1/models".toList
def dashboardActivityLimit : Nat := 64

inductive Route where
  | responses | models
  deriving DecidableEq, Repr

inductive GatewayError where
  | upstreamUrl
  deriving DecidableEq, Repr

def upstreamUrl (urls : UrlParser) (upstream : UpstreamKind) (headers : HeaderMap) (route : Route)
    (query : Option Str) : Except GatewayError Url := do
  let url ← match upstream with
    | .loopbackTest base =>
        okOr (urls.join base (match route with
          | .responses => "/v1/responses".toList
          | .models => "/v1/models".toList)) .upstreamUrl
    | .openAi =>
        okOr (urls.parse (match route, (headers.get "chatgpt-account-id").isSome with
          | .responses, true => chatgptResponsesUrl
          | .models, true => chatgptModelsUrl
          | .responses, false => apiResponsesUrl
          | .models, false => apiModelsUrl)) .upstreamUrl
  match query with
  | some query => .ok (urls.setQuery url query)
  | none => .ok url

def forwardedHeaders : List Str :=
  ["accept", "authorization", "chatgpt-account-id", "content-type", "openai-beta",
    "openai-organization", "openai-project", "originator", "session-id", "thread-id", "user-agent",
    "x-client-request-id", "x-codex-beta-features", "x-codex-turn-metadata", "x-codex-window-id",
    "x-openai-internal-codex-responses-lite"].map String.toList

def forwardRequestHeaders (source : HeaderMap) (upstream : UpstreamKind) (includeContentType : Bool) :
    HeaderMap :=
  if !upstream.isOpenai then
    (if includeContentType then [("content-type".toList, bytes "application/json".toList)] else [])
      ++ [("x-agentveil-synthetic".toList, bytes "true".toList)]
  else source.filter fun h =>
    h.1 ∈ forwardedHeaders && (includeContentType || h.1 ≠ "content-type".toList)

/-! ## Responses -/

structure ErrorResponse where
  status : Nat
  code : String
  message : String
  eventId : Option Str
  protectedRequestBytesForwarded : Option Nat
  deriving DecidableEq

def engineErrorStatus : EngineError → Nat × String
  | .oversize => (413, "agentveil_oversize")
  | .payload .json => (400, "agentveil_invalid_json")
  | .payload _ => (422, "agentveil_unsupported_payload")
  | .detector _ | .ledger _ | .invalidRewriteSpan | .blockedReachedRewrite =>
      (503, "agentveil_protection_failure")

def auditDecision : ForwardDecision → AuditDecision
  | .allowed => .allowed
  | .rewritten => .rewritten

structure Request where
  headers : HeaderMap
  body : List UInt8

def GatewayState.authorized (state : GatewayState) (headers : HeaderMap) : Bool :=
  match (headers.get localSessionHeader).bind headerText with
  | none => false
  | some candidate =>
      if len candidate ≠ len state.expectedLocalToken then false
      else bytes candidate = bytes state.expectedLocalToken

/-- The checks before the request is numbered; `auditHealthy` is what the flag holds. -/
def GatewayState.precheck (state : GatewayState) (headers : HeaderMap) (auditHealthy : Bool) :
    Except ErrorResponse Unit :=
  if state.authorized headers = false then
    .error ⟨401, "agentveil_unauthorized", "AgentVeil rejected the local client.", none, none⟩
  else if auditHealthy = false then
    .error ⟨503, "agentveil_audit_unavailable",
      "AgentVeil failed closed because its audit sink is unavailable.", none, some 0⟩
  else if contentTypeIsJson headers = false ∨ hasUnsupportedContentEncoding headers = true then
    .error ⟨415, "agentveil_unsupported_encoding",
      "AgentVeil requires uncompressed application/json requests.", none, none⟩
  else if state.upstream.isOpenai = true ∧ hasSingleAuthorization headers = false then
    .error ⟨401, "agentveil_upstream_auth_missing",
      "AgentVeil did not receive required Codex authentication.", none, none⟩
  else .ok ()

/-- `{byte:02x}` -/
def hexByteLower (b : UInt8) : Str := (hexByte b).map toAsciiLowercase

/-- `random_identifier`; the bytes are those of the system, if it has any. -/
def randomIdentifier (pre : String) (random : Option (Fin 12 → UInt8)) : Option Str :=
  random.map fun bytes => pre.toList ++ (List.ofFn bytes).flatMap hexByteLower

end AgentVeil
