import AgentVeil.Rust.Text

/-!
# Data classes, actions and findings

The enumerations of `domain.rs`. The derived order of an enumeration is the order of its
constructors.
-/

namespace AgentVeil

open Rust

inductive DataClass where
  | credentials | privateKey | jwt | databaseCredential | email | phone | privateIpv4
  | internalHostname | homePath | customTerm | tokenNamespace
  deriving DecidableEq, Repr

namespace DataClass

def policyKey : DataClass → String
  | credentials => "credentials"
  | privateKey => "private_keys"
  | jwt => "security.jwt"
  | databaseCredential => "network.database_url"
  | email => "pii.email"
  | phone => "pii.phone"
  | privateIpv4 => "infrastructure.private_ip"
  | internalHostname => "infrastructure.hostname"
  | homePath => "filesystem.home_path"
  | customTerm => "custom.term"
  | tokenNamespace => "agentveil.token_namespace"

def tokenLabel : DataClass → Str
  | email => "EMAIL".toList
  | phone => "PHONE".toList
  | privateIpv4 => "IPV4".toList
  | internalHostname => "HOST".toList
  | homePath => "PATH".toList
  | customTerm => "TERM".toList
  | credentials | privateKey | jwt | databaseCredential | tokenNamespace => "BLOCKED".toList

/-- The classes that must always block and can never be restored. -/
def hardBlock : DataClass → Bool
  | credentials | privateKey | jwt | databaseCredential | tokenNamespace => true
  | _ => false

end DataClass

inductive Action where
  | block | mask | tokenize | allow
  deriving DecidableEq, Repr

/-- `block > mask > tokenize > allow`. -/
def Action.precedence : Action → Nat
  | block => 4
  | mask => 3
  | tokenize => 2
  | allow => 1

theorem Action.precedence_inj {a b : Action} (h : a.precedence = b.precedence) : a = b := by
  cases a <;> cases b <;> first | rfl | cases h

inductive DetectorId where
  | agentVeilTokenNamespace | openAiApiKey | githubToken | awsAccessKeyId | awsSecretAssignment
  | googleApiKey | stripeSecretKey | slackToken | pemPrivateKey | credentialedDatabaseUrl
  | bearerCredential | jwt | envCredentialAssignment | email | phone | privateIpv4
  | internalHostname | homePath | customTerm
  deriving DecidableEq, Repr

inductive Confidence where
  | high | contextual
  deriving DecidableEq, Repr

inductive FieldClass where
  | instructions | messageText | agentMessageText | functionArguments | functionOutput
  | customToolInput | customToolOutput | toolDescription | toolSchemaText | reasoningSummary
  | clientMetadata | structuralMetadata
  deriving DecidableEq, Repr

structure Finding where
  dataClass : DataClass
  detector : DetectorId
  confidence : Confidence
  sourceSpan : Span
  deriving DecidableEq, Repr

end AgentVeil
