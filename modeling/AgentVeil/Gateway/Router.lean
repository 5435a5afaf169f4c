import AgentVeil.Gateway.Theorems

/-!
# The router

`build_router`: the checks of the configuration before there is a gateway, and what every gateway that
passes them is.
-/

namespace AgentVeil

open Rust

/-! ## Configuration -/

/-- `std::net::IpAddr` -/
inductive IpAddr where
  | v4 (a b c d : UInt8)
  | v6 (segments : Fin 8 → UInt16)

def IpAddr.isLoopback : IpAddr → Bool
  | v4 a _ _ _ => a = 127
  | v6 segments => List.ofFn segments = [0, 0, 0, 0, 0, 0, 0, 1]

/-- What the URL crate shows of a URL, and the parser of addresses. -/
structure UrlParts where
  scheme : Url → Str
  username : Url → Str
  password : Url → Option Str
  query : Url → Option Str
  fragment : Url → Option Str
  hostStr : Url → Option Str
  parseIpAddr : Str → Option IpAddr

/-- The errors of `GatewayError` that `build_router` returns. -/
inductive RouterError where
  | nonLoopbackBind
  | invalidLocalSessionToken
  | unsafeTestUpstream
  | liveRestorationNotVerified
  | demoPolicyRequiresTestUpstream
  | engine (error : EngineError)
  | httpClient
  | audit

structure GatewayConfig where
  bind : IpAddr
  policy : ValidatedPolicy
  scope : SessionScope
  localSessionToken : Str
  upstream : UpstreamKind
  restorationMode : RestorationMode

/-- The crates that a gateway calls. -/
structure Crates where
  unicode : Unicode
  serde : SerdeJson
  toVec : AuditEvent → Option (List UInt8)
  urls : UrlParser
  parts : UrlParts
  /-- `blake3::hash` in hexadecimal. -/
  blake3 : List UInt8 → Str
  /-- The canonical bytes of a policy. -/
  policyToVec : ValidatedPolicy → List UInt8
  hashMap : HashMap Token Entry

/-- What the system gives: a client, the audit file with its bytes, and random bytes. -/
structure Environment (R : Type) where
  httpClient : Bool
  auditFile : Option (List UInt8)
  random : R

def validateLoopbackTestUrl (parts : UrlParts) (url : Url) : Except RouterError Unit := do
  ensure (parts.scheme url = "http".toList ∧ parts.username url = [] ∧ parts.password url = none ∧
    parts.query url = none ∧ parts.fragment url = none) .unsafeTestUpstream
  let host ← okOr (parts.hostStr url) .unsafeTestUpstream
  let address ← okOr (parts.parseIpAddr host) .unsafeTestUpstream
  ensure (address.isLoopback = true) .unsafeTestUpstream

def UpstreamKind.validate (parts : UrlParts) : UpstreamKind → Except RouterError Unit
  | openAi => .ok ()
  | loopbackTest base => validateLoopbackTestUrl parts base

def pseudonym (blake3 : List UInt8 → Str) (scope : SessionScope) : Str :=
  "av_session_".toList ++ (blake3 (bytes scope.value)).take 16

/-- `ValidatedPolicy::hash` -/
def ValidatedPolicy.hash (crates : Crates) (policy : ValidatedPolicy) : Str :=
  crates.blake3 (crates.policyToVec policy)

/-- `PrivacyEngine::new` -/
def PrivacyEngine.new {R : Type} (hashMap : HashMap Token Entry) (policy : ValidatedPolicy)
    (random : R) : Except EngineError (PrivacyEngine R) :=
  PrivacyEngine.withRandom hashMap policy random policy.defaults.ledgerMaxEntries

/-- The checks of `build_router` on its configuration. -/
def GatewayConfig.validate (parts : UrlParts) (config : GatewayConfig) : Except RouterError Unit := do
  ensure (config.bind.isLoopback = true) .nonLoopbackBind
  ensure (32 ≤ len config.localSessionToken ∧ len config.localSessionToken ≤ 128 ∧
    config.localSessionToken.all isAsciiAlphanumeric = true) .invalidLocalSessionToken
  config.upstream.validate parts
  ensure (¬(config.restorationMode ≠ .disabled ∧ config.upstream.isOpenai = true))
    .liveRestorationNotVerified
  ensure (¬(config.policy.inner.name = "demo".toList ∧ config.upstream.isOpenai = true))
    .demoPolicyRequiresTestUpstream

/-- `build_router`: the state of the gateway, without its routes. -/
def buildRouter {R : Type} (crates : Crates) (config : GatewayConfig) (environment : Environment R) :
    Except RouterError (GatewayState × Shared R) := do
  config.validate crates.parts
  let engine ← (PrivacyEngine.new crates.hashMap config.policy environment.random).mapError .engine
  ensure (environment.httpClient = true) .httpClient
  let file ← okOr environment.auditFile .audit
  .ok ({
    unicode := crates.unicode
    serde := crates.serde
    toVec := crates.toVec
    urls := crates.urls
    scope := config.scope
    expectedLocalToken := config.localSessionToken
    upstream := config.upstream
    restorationMode := config.restorationMode
    sessionPseudonym := pseudonym crates.blake3 config.scope
    policyName := config.policy.inner.name
    policyHash := config.policy.hash crates }, ⟨engine, ⟨file⟩, true, 0, []⟩)

/-! ## What is built -/

variable {R : Type} {crates : Crates} {config : GatewayConfig} {environment : Environment R}
  {state : GatewayState} {shared : Shared R}

/-- A validated policy always has an engine: its capacity is one that a ledger admits. -/
theorem exists_engine (hashMap : HashMap Token Entry) (policy : ValidatedPolicy) (random : R) :
    ∃ engine, PrivacyEngine.new hashMap policy random = .ok engine := by
  obtain ⟨hlow, hhigh⟩ := (validate_ok_iff.mp policy.valid).2.2.2.2.2.1
  have hcapacity : ¬(policy.defaults.ledgerMaxEntries = 0 ∨ policy.defaults.ledgerMaxEntries > 16384) := by
    unfold ValidatedPolicy.defaults
    omega
  unfold PrivacyEngine.new PrivacyEngine.withRandom TokenLedger.withRandom
  rw [if_neg hcapacity]
  exact ⟨_, rfl⟩

/-- A gateway that `build_router` returns. -/
structure Built (crates : Crates) (config : GatewayConfig) (state : GatewayState) (shared : Shared R) :
    Prop where
  bind : config.bind.isLoopback = true
  token : state.expectedLocalToken = config.localSessionToken ∧ 32 ≤ len config.localSessionToken ∧
    len config.localSessionToken ≤ 128 ∧ config.localSessionToken.all isAsciiAlphanumeric = true
  upstream : state.upstream = config.upstream ∧ config.upstream.validate crates.parts = .ok ()
  urls : state.urls = crates.urls
  restoration : state.upstream.isOpenai = true → state.restorationMode = .disabled
  demo : state.upstream.isOpenai = true → state.policyName ≠ "demo".toList
  pseudonym : state.sessionPseudonym = AgentVeil.pseudonym crates.blake3 config.scope
  policyName : state.policyName = config.policy.inner.name
  policyHash : state.policyHash = config.policy.hash crates
  start : ∃ engine file, shared = ⟨engine, ⟨file⟩, true, 0, []⟩ ∧ ∃ random,
    PrivacyEngine.new crates.hashMap config.policy random = .ok engine

theorem validate_config_iff {parts : UrlParts} : config.validate parts = .ok () ↔
    config.bind.isLoopback = true ∧
    (32 ≤ len config.localSessionToken ∧ len config.localSessionToken ≤ 128 ∧
      config.localSessionToken.all isAsciiAlphanumeric = true) ∧
    config.upstream.validate parts = .ok () ∧
    (config.upstream.isOpenai = true →
      config.restorationMode = .disabled ∧ config.policy.inner.name ≠ "demo".toList) := by
  simp only [GatewayConfig.validate, check_bind_ok_iff, ensure_ok_iff]
  cases config.upstream.isOpenai with
  | true => simp
  | false => simp

theorem built_of_buildRouter (h : buildRouter crates config environment = .ok (state, shared)) :
    Built crates config state shared := by
  unfold buildRouter at h
  obtain ⟨hvalid, h⟩ := check_bind_ok_iff.mp h
  obtain ⟨hbind, htoken, hupstream, hopenai⟩ := validate_config_iff.mp hvalid
  obtain ⟨engine, hengine, h⟩ := bind_ok_iff.mp h
  obtain ⟨_, h⟩ := check_bind_ok_iff.mp h
  obtain ⟨file, _, h⟩ := bind_ok_iff.mp h
  obtain ⟨rfl, rfl⟩ := Prod.mk.inj (Except.ok.inj h)
  refine ⟨hbind, ⟨rfl, htoken⟩, ⟨rfl, hupstream⟩, rfl, fun h => (hopenai h).1, fun h => (hopenai h).2,
    rfl, rfl, rfl, engine, file, rfl, environment.random, ?_⟩
  obtain ⟨engine', hnew⟩ := exists_engine crates.hashMap config.policy environment.random
  rw [hnew] at hengine ⊢
  cases hengine
  rfl

end AgentVeil
