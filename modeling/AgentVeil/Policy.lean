import AgentVeil.Domain
import AgentVeil.Rust.Collections

/-!
# Policies

The checks of `policy.rs`. A `ValidatedPolicy` carries the proof that its policy passed them, so
that every class has a rule and no hard-block class has an action other than `block`.
-/

namespace AgentVeil

open Rust

def maxRestorationTtlSeconds : Nat := 30 * 60
def defaultRestorationTtlSeconds : Nat := 15 * 60

structure PolicyDefaults where
  unknownSensitive : Action
  rawLogging : Bool
  maxRequestBytes : Nat
  ledgerMaxEntries : Nat

structure CategoryRule where
  action : Action
  restorable : Bool
  ttlSeconds : Option Nat

structure DetectorSettings where
  internalHostnameSuffixes : List Str
  customTerms : List Str
  homePrefixes : List Str

structure Policy where
  version : Nat
  name : Str
  defaults : PolicyDefaults
  categories : List (String × CategoryRule)
  detectors : DetectorSettings

inductive PolicyError where
  | unsupportedVersion (version : Nat)
  | unsafePolicyName
  | rawLoggingForbidden
  | unknownSensitiveMustBlock
  | invalidMaxRequestBytes
  | invalidLedgerCapacity
  | unknownCategory (key : String)
  | missingCategory (key : String)
  | hardBlockInvariant (dataClass : DataClass)
  | hardBlockRestoration (dataClass : DataClass)
  | restorationRequiresTokenize (dataClass : DataClass)
  | tokenizationRequiresRestoration (dataClass : DataClass)
  | ttlRequiresTokenize (dataClass : DataClass)
  | invalidTtl (dataClass : DataClass)
  | tooManyDetectorTerms
  | unsafeDetectorTerm
  deriving DecidableEq

def allDataClasses : List DataClass :=
  [.credentials, .privateKey, .jwt, .databaseCredential, .email, .phone, .privateIpv4,
    .internalHostname, .homePath, .customTerm, .tokenNamespace]

def knownCategoryKeys : List String :=
  ["credentials", "private_keys", "security.jwt", "network.database_url", "pii.email", "pii.phone",
    "infrastructure.private_ip", "infrastructure.hostname", "filesystem.home_path", "custom.term",
    "agentveil.token_namespace"]

def validateRule (dataClass : DataClass) (rule : CategoryRule) : Except PolicyError Unit := do
  ensure (¬(dataClass.hardBlock = true ∧ rule.action ≠ .block)) (.hardBlockInvariant dataClass)
  ensure (¬(dataClass.hardBlock = true ∧ rule.restorable = true)) (.hardBlockRestoration dataClass)
  ensure (¬(rule.restorable = true ∧ rule.action ≠ .tokenize))
    (.restorationRequiresTokenize dataClass)
  ensure (¬(rule.action = .tokenize ∧ rule.restorable = false))
    (.tokenizationRequiresRestoration dataClass)
  ensure (¬(rule.action ≠ .tokenize ∧ rule.ttlSeconds.isSome = true))
    (.ttlRequiresTokenize dataClass)
  if rule.action = .tokenize then
    let ttl := rule.ttlSeconds.getD defaultRestorationTtlSeconds
    ensure (¬(ttl = 0 ∨ ttl > maxRestorationTtlSeconds)) (.invalidTtl dataClass)
  else .ok ()

def validateDetectorSettings (settings : DetectorSettings) : Except PolicyError Unit := do
  ensure (¬(settings.internalHostnameSuffixes.length > 64 ∨ settings.customTerms.length > 128
    ∨ settings.homePrefixes.length > 16)) .tooManyDetectorTerms
  (settings.internalHostnameSuffixes ++ settings.customTerms ++ settings.homePrefixes).forM
    fun term =>
      ensure (¬(len term < 3 ∨ len term > 128 ∨ term.any isControl = true)) .unsafeDetectorTerm

def isSafeSlug (value : Str) : Bool :=
  value ≠ [] && len value ≤ 48 &&
    value.all fun c => isAsciiLowercase c || isAsciiDigit c || c = '-' || c = '_'

/-- `BTreeMap::get` on the categories. -/
def Policy.category (policy : Policy) (key : String) : Option CategoryRule :=
  (policy.categories.find? (·.1 = key)).map Prod.snd

/-- The rule of one class, checked. -/
def Policy.validateClass (policy : Policy) (dataClass : DataClass) : Except PolicyError Unit :=
  match policy.category dataClass.policyKey with
  | none => .error (.missingCategory dataClass.policyKey)
  | some rule => validateRule dataClass rule

/-- The checks of `ValidatedPolicy::validate`. -/
def Policy.validate (policy : Policy) : Except PolicyError Unit := do
  ensure (policy.version = 1) (.unsupportedVersion policy.version)
  ensure (isSafeSlug policy.name = true) .unsafePolicyName
  ensure (policy.defaults.rawLogging = false) .rawLoggingForbidden
  ensure (policy.defaults.unknownSensitive = .block) .unknownSensitiveMustBlock
  ensure (1024 ≤ policy.defaults.maxRequestBytes ∧
    policy.defaults.maxRequestBytes ≤ 8 * 1024 * 1024) .invalidMaxRequestBytes
  ensure (1 ≤ policy.defaults.ledgerMaxEntries ∧ policy.defaults.ledgerMaxEntries ≤ 16384)
    .invalidLedgerCapacity
  policy.categories.forM fun c => ensure (c.1 ∈ knownCategoryKeys) (.unknownCategory c.1)
  allDataClasses.forM policy.validateClass
  validateDetectorSettings policy.detectors

structure ValidatedPolicy where
  inner : Policy
  valid : inner.validate = .ok ()

theorem mem_allDataClasses (c : DataClass) : c ∈ allDataClasses := by
  cases c <;> decide

theorem validate_ok_iff {policy : Policy} : policy.validate = .ok () ↔
    policy.version = 1 ∧ isSafeSlug policy.name = true ∧ policy.defaults.rawLogging = false ∧
    policy.defaults.unknownSensitive = .block ∧
    (1024 ≤ policy.defaults.maxRequestBytes ∧
      policy.defaults.maxRequestBytes ≤ 8 * 1024 * 1024) ∧
    (1 ≤ policy.defaults.ledgerMaxEntries ∧ policy.defaults.ledgerMaxEntries ≤ 16384) ∧
    (∀ c ∈ policy.categories, c.1 ∈ knownCategoryKeys) ∧
    (∀ c, policy.validateClass c = .ok ()) ∧
    validateDetectorSettings policy.detectors = .ok () := by
  simp only [Policy.validate, check_bind_ok_iff, ensure_ok_iff, forM_ok_iff,
    mem_allDataClasses, forall_const]

theorem validateRule_ok_iff {c : DataClass} {rule : CategoryRule} : validateRule c rule = .ok () ↔
    (c.hardBlock = true → rule.action = .block ∧ rule.restorable = false) ∧
    (rule.restorable = true ↔ rule.action = .tokenize) ∧
    (rule.action ≠ .tokenize → rule.ttlSeconds = none) ∧
    (rule.action = .tokenize → 0 < rule.ttlSeconds.getD defaultRestorationTtlSeconds ∧
      rule.ttlSeconds.getD defaultRestorationTtlSeconds ≤ maxRestorationTtlSeconds) := by
  simp only [validateRule, check_bind_ok_iff, ensure_ok_iff]
  by_cases ht : rule.action = .tokenize
  · cases c.hardBlock <;> cases rule.restorable <;> simp [ht]
  · cases c.hardBlock <;> cases rule.restorable <;> simp [ht]

namespace ValidatedPolicy

variable (policy : ValidatedPolicy)

def defaults : PolicyDefaults := policy.inner.defaults
def detectors : DetectorSettings := policy.inner.detectors

theorem category_isSome (c : DataClass) :
    (policy.inner.category c.policyKey).isSome = true := by
  have h := (validate_ok_iff.mp policy.valid).2.2.2.2.2.2.2.1 c
  unfold Policy.validateClass at h
  split at h
  · cases h
  · simp [*]

/-- Validation proves that every class has a rule, so indexing never panics. -/
def ruleFor (dataClass : DataClass) : CategoryRule :=
  (policy.inner.category dataClass.policyKey).get (policy.category_isSome dataClass)

theorem ruleFor_valid (c : DataClass) : validateRule c (policy.ruleFor c) = .ok () := by
  have h := (validate_ok_iff.mp policy.valid).2.2.2.2.2.2.2.1 c
  unfold Policy.validateClass at h
  split at h
  · cases h
  · rename_i rule hrule
    simpa [ruleFor, hrule] using h

theorem ruleFor_hardBlock {c : DataClass} (h : c.hardBlock = true) :
    (policy.ruleFor c).action = .block :=
  ((validateRule_ok_iff.mp (policy.ruleFor_valid c)).1 h).1

theorem not_hardBlock_of_ne_block {c : DataClass} (h : (policy.ruleFor c).action ≠ .block) :
    c.hardBlock = false := by
  cases hc : c.hardBlock with
  | false => rfl
  | true => exact absurd (policy.ruleFor_hardBlock hc) h

theorem detectors_valid : validateDetectorSettings policy.detectors = .ok () :=
  (validate_ok_iff.mp policy.valid).2.2.2.2.2.2.2.2

end ValidatedPolicy

end AgentVeil
