import AgentVeil.Detector.View
import AgentVeil.Policy
import AgentVeil.Rust.Regex

/-!
# The scanner

The detectors of `detector.rs`, the scan over all views and the resolution of overlaps. A loop that
pushes findings is a `gather`; a slice that may panic goes through `orPanic`.
-/

namespace AgentVeil

open Rust Rust.Regex

/-! ## Patterns -/

def isUpperHex (c : Char) : Bool := (65 ≤ c.toNat && c.toNat ≤ 70) || isAsciiDigit c
def isTokenCharacter (c : Char) : Bool := isAsciiAlphanumeric c || c = '_' || c = '-'

/-- `\[AV_(?:EMAIL|PHONE|IPV4|HOST|PATH|TERM)_[A-F0-9]{32}\]` -/
def tokenPattern : Regex :=
  cat [lit "[AV_".toList, anyOf (["EMAIL", "PHONE", "IPV4", "HOST", "PATH", "TERM"].map (lit ·.toList)),
    lit "_".toList, exactly isUpperHex 32, lit "]".toList]

/-- `(?-u:sk-(?:proj-|svcacct-)?[A-Za-z0-9_-]{16,})` -/
def openAiPattern : Regex :=
  cat [lit "sk-".toList, opt (anyOf [lit "proj-".toList, lit "svcacct-".toList]),
    atLeast isTokenCharacter 16]

/-- `(?-u:(?:gh[pousr]_[A-Za-z0-9]{30,}|github_pat_[A-Za-z0-9_]{40,}))` -/
def githubPattern : Regex :=
  anyOf [cat [lit "gh".toList, one (· ∈ "pousr".toList), lit "_".toList,
      atLeast isAsciiAlphanumeric 30],
    cat [lit "github_pat_".toList, atLeast (fun c => isAsciiAlphanumeric c || c = '_') 40]]

/-- `(?-u:(?:AKIA|ASIA)[A-Z0-9]{16})` -/
def awsPattern : Regex :=
  cat [anyOf [lit "AKIA".toList, lit "ASIA".toList],
    exactly (fun c => isAsciiUppercase c || isAsciiDigit c) 16]

/-- `(?-u:AIza[A-Za-z0-9_-]{35})` -/
def googlePattern : Regex := cat [lit "AIza".toList, exactly isTokenCharacter 35]

/-- `(?-u:(?:sk|rk)_(?:test|live)_[A-Za-z0-9]{16,})` -/
def stripePattern : Regex :=
  cat [anyOf [lit "sk".toList, lit "rk".toList], lit "_".toList,
    anyOf [lit "test".toList, lit "live".toList], lit "_".toList, atLeast isAsciiAlphanumeric 16]

/-- `(?-u:(?:xox[bpar]-|xapp-|xwfp-)[A-Za-z0-9-]{16,})` -/
def slackPattern : Regex :=
  cat [anyOf [cat [lit "xox".toList, one (· ∈ "bpar".toList), lit "-".toList], lit "xapp-".toList,
      lit "xwfp-".toList],
    atLeast (fun c => isAsciiAlphanumeric c || c = '-') 16]

/-- `(?i:\b(?:postgres(?:ql)?|mysql|mongodb(?:\+srv)?|redis|mssql)://[^/\s:@]+:[^@\s/]+@[^/\s]+)` -/
def databaseUrlPattern (u : Unicode) : Regex :=
  let word (s : String) := litBy caseless s.toList
  cat [wordBoundary u.isWord,
    anyOf [seq (word "postgres") (opt (word "ql")), word "mysql",
      seq (word "mongodb") (opt (word "+srv")), word "redis", word "mssql"],
    lit "://".toList, plus fun c => !(c = '/' || isWhitespace c || c = ':' || c = '@'),
    lit ":".toList, plus fun c => !(c = '@' || isWhitespace c || c = '/'),
    lit "@".toList, plus fun c => !(c = '/' || isWhitespace c)]

/-- `(?i-u:\bbearer[ \t]+[A-Za-z0-9._~+/=-]{20,}\b)` -/
def bearerPattern : Regex :=
  cat [wordBoundary isAsciiWord, litBy asciiCaseless "bearer".toList,
    plus fun c => c = ' ' || c = '\t',
    atLeast (fun c => isAsciiAlphanumeric c || c ∈ "._~+/=-".toList) 20, wordBoundary isAsciiWord]

/-- `(?-u:eyJ[A-Za-z0-9_-]{6,}\.[A-Za-z0-9_-]{6,}\.[A-Za-z0-9_-]{8,})` -/
def jwtPattern : Regex :=
  cat [lit "eyJ".toList, atLeast isTokenCharacter 6, lit ".".toList, atLeast isTokenCharacter 6,
    lit ".".toList, atLeast isTokenCharacter 8]

/-- `[A-Za-z0-9](?:[A-Za-z0-9-]{0,61}[A-Za-z0-9])?` -/
def domainLabel : Regex :=
  cat [one isAsciiAlphanumeric,
    opt (cat [many (one fun c => isAsciiAlphanumeric c || c = '-') 0 (some 61),
      one isAsciiAlphanumeric])]

/-- ``(?-u:\b[A-Za-z0-9.!#$%&'*+/=?^_`{|}~-]+@label(?:\.label)+\b)`` -/
def emailPattern : Regex :=
  cat [wordBoundary isAsciiWord,
    plus fun c => isAsciiAlphanumeric c || c ∈ ".!#$%&'*+/=?^_`\x7b|\x7d~-".toList,
    lit "@".toList, domainLabel, many (cat [lit ".".toList, domainLabel]) 1 none,
    wordBoundary isAsciiWord]

/-- `(?-u:\b(?:[0-9]{1,3}\.){3}[0-9]{1,3}\b)` -/
def privateIpv4Pattern : Regex :=
  let octet := many (one isAsciiDigit) 1 (some 3)
  cat [wordBoundary isAsciiWord, many (cat [octet, lit ".".toList]) 3 (some 3), octet,
    wordBoundary isAsciiWord]

/-- `(?-u:(?:\+?1[-. ]?)?\(?[2-9][0-9]{2}\)?[-. ][0-9]{3}[-. ][0-9]{4})` -/
def phonePattern : Regex :=
  let separator := one fun c => c = '-' || c = '.' || c = ' '
  cat [opt (cat [opt (lit "+".toList), lit "1".toList, opt separator]), opt (lit "(".toList),
    one fun c => isAsciiDigit c && 50 ≤ c.toNat, exactly isAsciiDigit 2, opt (lit ")".toList),
    separator, exactly isAsciiDigit 3, separator, exactly isAsciiDigit 4]

/-- `(?im)^\s*(?:export\s+)?[A-Z0-9_]*(?:API_KEY|..|PRIVATE_KEY)[A-Z0-9_]*\s*[:=]\s*["']?([^\s#"']{12,})` -/
def envAssignmentPattern : Regex :=
  let name := star (caseless fun c => isAsciiUppercase c || isAsciiDigit c || c = '_')
  cat [lineStart, star isWhitespace,
    opt (cat [litBy caseless "export".toList, plus isWhitespace]), name,
    anyOf (["API_KEY", "SECRET", "PASSWORD", "PASSWD", "TOKEN", "CLIENT_SECRET", "PRIVATE_KEY"].map
      (litBy caseless ·.toList)),
    name, star isWhitespace, one fun c => c = ':' || c = '=', star isWhitespace,
    opt (one fun c => c = '"' || c = '\''),
    group (atLeast (fun c => !(isWhitespace c || c = '#' || c = '"' || c = '\'')) 12)]

structure PatternDetector where
  regex : Regex
  dataClass : DataClass
  detector : DetectorId
  confidence : Confidence
  secretOnly : Bool

/-- The specifications of `Scanner::new`. -/
def patternDetectors (u : Unicode) : List PatternDetector :=
  [⟨tokenPattern, .tokenNamespace, .agentVeilTokenNamespace, .high, false⟩,
   ⟨openAiPattern, .credentials, .openAiApiKey, .high, true⟩,
   ⟨githubPattern, .credentials, .githubToken, .high, true⟩,
   ⟨awsPattern, .credentials, .awsAccessKeyId, .high, true⟩,
   ⟨googlePattern, .credentials, .googleApiKey, .high, true⟩,
   ⟨stripePattern, .credentials, .stripeSecretKey, .high, true⟩,
   ⟨slackPattern, .credentials, .slackToken, .high, true⟩,
   ⟨databaseUrlPattern u, .databaseCredential, .credentialedDatabaseUrl, .high, true⟩,
   ⟨bearerPattern, .credentials, .bearerCredential, .contextual, true⟩,
   ⟨jwtPattern, .jwt, .jwt, .high, true⟩]

/-! ## Detectors -/

structure Scanner where
  internalHostnameSuffixes : List Str
  customTerms : List Str
  homePrefixes : List Str

def Scanner.new (settings : DetectorSettings) : Scanner where
  internalHostnameSuffixes := settings.internalHostnameSuffixes.map fun value =>
    value.map toAsciiLowercase
  customTerms := settings.customTerms
  homePrefixes := settings.homePrefixes

def isHostnameCharacter (c : Char) : Bool := isAsciiAlphanumeric c || c = '-' || c = '.'

def isWordCharacter (u : Unicode) (c : Char) : Bool := u.isAlphanumeric c || c = '_'

def isBoundary (u : Unicode) (value : Str) (start stop : Nat) : Fallible DetectorError Bool := do
  let left ← orPanic (sliceTo? value start)
  let right ← orPanic (sliceFrom? value stop)
  .ok (!left.getLast?.any (isWordCharacter u) && !right.head?.any (isWordCharacter u))

def isPlaceholder (value : Str) : Bool :=
  let lower := value.map toAsciiLowercase
  "$\x7b".toList.isPrefixOf lower || "<".toList.isPrefixOf lower ||
    ["changeme", "replace_me", "placeholder", "example_only", "your_secret_here"].any fun p =>
      lower = p.toList

/-- An octet of `Ipv4Addr`'s parser: one to three digits without a leading zero, at most 255. -/
def parseOctet (s : Str) : Option Nat :=
  if s = [] ∨ 3 < s.length ∨ s.all isAsciiDigit = false then none
  else if 1 < s.length ∧ s.head? = some '0' then none
  else
    let n := s.foldl (fun n c => n * 10 + (c.toNat - 48)) 0
    if n ≤ 255 then some n else none

/-- `str::parse::<Ipv4Addr>`. -/
def parseIpv4 (s : Str) : Option (Nat × Nat × Nat × Nat) :=
  match (s.splitOn '.').map parseOctet with
  | [some a, some b, some c, some d] => some (a, b, c, d)
  | _ => none

/-- `is_private() || is_loopback() || is_link_local()` -/
def isInternalAddress : Nat × Nat × Nat × Nat → Bool
  | (a, b, _, _) =>
      a = 10 || (a = 172 && 16 ≤ b && b ≤ 31) || (a = 192 && b = 168) || a = 127
        || (a = 169 && b = 254)

def beginMarker : Str := "-----BEGIN ".toList
def dashes : Str := "-----".toList

def privateKeyLabels : List Str :=
  ["PRIVATE KEY", "ENCRYPTED PRIVATE KEY", "RSA PRIVATE KEY", "DSA PRIVATE KEY", "EC PRIVATE KEY",
    "OPENSSH PRIVATE KEY"].map String.toList

def endMarker (label : Str) : Str := "-----END ".toList ++ label ++ dashes

/-- The loop of `scan_private_keys` from a cursor, which advances in every round. -/
def scanPrivateKeysFrom (view : ScanView) : Nat → Nat → Fallible DetectorError (List Finding)
  | 0, _ => .error .panic
  | fuel + 1, cursor => do
      let rest ← orPanic (sliceFrom? view.text cursor)
      match findStr beginMarker rest with
      | none => .ok []
      | some relative =>
          let start := cursor + relative
          let labelStart := start + len beginMarker
          let afterBegin ← orPanic (sliceFrom? view.text labelStart)
          match findStr dashes afterBegin with
          | none => do
              let f ← view.finding ⟨start, len view.text⟩ .privateKey .pemPrivateKey .high
              .ok [f]
          | some labelEndRelative =>
              let labelEnd := labelStart + labelEndRelative
              let label ← orPanic (get? view.text ⟨labelStart, labelEnd⟩)
              if label ∉ privateKeyLabels then scanPrivateKeysFrom view fuel (labelEnd + 5)
              else
                let bodyStart := labelEnd + 5
                let body ← orPanic (sliceFrom? view.text bodyStart)
                match findStr (endMarker label) body with
                | none => do
                    let f ← view.finding ⟨start, len view.text⟩ .privateKey .pemPrivateKey .high
                    .ok [f]
                | some endRelative =>
                    let stop := bodyStart + endRelative + len (endMarker label)
                    let f ← view.finding ⟨start, stop⟩ .privateKey .pemPrivateKey .high
                    let rest ← scanPrivateKeysFrom view fuel stop
                    .ok (f :: rest)

def scanPrivateKeys (view : ScanView) : Fallible DetectorError (List Finding) :=
  scanPrivateKeysFrom view (len view.text + 1) 0

/-- One finding for each match. -/
def scanPattern (pattern : PatternDetector) (view : ScanView) :
    Fallible DetectorError (List Finding) :=
  gather (fun m => do
    let f ← view.finding m.range pattern.dataClass pattern.detector pattern.confidence
    .ok [f]) (findIter pattern.regex view.text)

def scanEnvAssignments (view : ScanView) : Fallible DetectorError (List Finding) :=
  gather (fun m =>
    match m.group with
    | none => .ok []
    | some candidate =>
        if isPlaceholder candidate.text then .ok []
        else do
          let rest ← orPanic (sliceFrom? view.text m.start)
          let detector := if "AWS_SECRET_ACCESS_KEY".toList.isPrefixOf (rest.map toAsciiUppercase)
            then .awsSecretAssignment else .envCredentialAssignment
          let f ← view.finding candidate.range .credentials detector .contextual
          .ok [f]) (findIter envAssignmentPattern view.text)

def scanEmail (view : ScanView) : Fallible DetectorError (List Finding) :=
  scanPattern ⟨emailPattern, .email, .email, .high, false⟩ view

def scanPrivateIpv4 (view : ScanView) : Fallible DetectorError (List Finding) :=
  gather (fun m =>
    if (parseIpv4 m.text).any isInternalAddress then do
      let f ← view.finding m.range .privateIpv4 .privateIpv4 .high
      .ok [f]
    else .ok []) (findIter privateIpv4Pattern view.text)

def phoneLabels : List Str :=
  ["phone", "mobile", "telephone", "tel", "contact"].map String.toList

def scanPhone (view : ScanView) : Fallible DetectorError (List Finding) :=
  gather (fun m => do
    let context ← orPanic (get? view.text ⟨m.start - 32, m.start⟩)
    if phoneLabels.any fun label => contains label (context.map toAsciiLowercase) then do
      let f ← view.finding m.range .phone .phone .contextual
      .ok [f]
    else .ok []) (findIter phonePattern view.text)

/-- The hostname that ends in a suffix found at `start`, if it is one. -/
def scanSuffixAt (u : Unicode) (view : ScanView) (suffix : Str) (start : Nat) :
    Fallible DetectorError (List Finding) := do
  let before ← orPanic (sliceTo? view.text start)
  let hostnameStart :=
    match rfindChar (fun c => !isHostnameCharacter c) before with
    | none => 0
    | some index => index + 1
  let stop := start + len suffix
  if hostnameStart = start then .ok []
  else do
    if ← isBoundary u view.text hostnameStart stop then do
      let f ← view.finding ⟨hostnameStart, stop⟩ .internalHostname .internalHostname .high
      .ok [f]
    else .ok []

def scanTermAt (u : Unicode) (view : ScanView) (term : Str) (start : Nat) :
    Fallible DetectorError (List Finding) := do
  let stop := start + len term
  if ← isBoundary u view.text start stop then do
    let f ← view.finding ⟨start, stop⟩ .customTerm .customTerm .high
    .ok [f]
  else .ok []

def scanHomeAt (view : ScanView) (start : Nat) : Fallible DetectorError (List Finding) := do
  let rest ← orPanic (sliceFrom? view.text start)
  let stop :=
    match findChar isWhitespace rest with
    | none => len view.text
    | some relative => start + relative
  let f ← view.finding ⟨start, stop⟩ .homePath .homePath .high
  .ok [f]

def scanConfigured (u : Unicode) (scanner : Scanner) (view : ScanView) :
    Fallible DetectorError (List Finding) := do
  let lower := view.text.map toAsciiLowercase
  let hostnames ← gather (fun suffix => gather (scanSuffixAt u view suffix)
    (matchIndices suffix lower)) scanner.internalHostnameSuffixes
  let terms ← gather (fun term => gather (scanTermAt u view term) (matchIndices term view.text))
    scanner.customTerms
  let paths ← gather (fun homePrefix => gather (scanHomeAt view) (matchIndices homePrefix view.text))
    scanner.homePrefixes
  .ok (hostnames ++ terms ++ paths)

/-! ## Scanning -/

/-- The detectors on one view; a secret view has only the secret ones. -/
def scanView (u : Unicode) (scanner : Scanner) (view : ScanView × Bool) :
    Fallible DetectorError (List Finding) := do
  let patterns ← gather (scanPattern · view.1) ((patternDetectors u).filter fun pattern =>
    !(view.2 && !pattern.secretOnly && pattern.dataClass ≠ .tokenNamespace))
  let privateKeys ← scanPrivateKeys view.1
  let assignments ← scanEnvAssignments view.1
  if view.2 then .ok (patterns ++ privateKeys ++ assignments)
  else do
    let emails ← scanEmail view.1
    let addresses ← scanPrivateIpv4 view.1
    let phones ← scanPhone view.1
    let configured ← scanConfigured u scanner view.1
    .ok (patterns ++ privateKeys ++ assignments ++ emails ++ addresses ++ phones ++ configured)

/-- The order of the findings: by start, end and detector. -/
def findingLe (a b : Finding) : Bool :=
  a.sourceSpan.start < b.sourceSpan.start || (a.sourceSpan.start = b.sourceSpan.start &&
    (a.sourceSpan.stop < b.sourceSpan.stop || (a.sourceSpan.stop = b.sourceSpan.stop &&
      a.detector.ctorIdx ≤ b.detector.ctorIdx)))

def sameFinding (left right : Finding) : Bool :=
  left.sourceSpan = right.sourceSpan && left.dataClass = right.dataClass
    && left.detector = right.detector

/-- The views that `scan` looks at, each with whether it is a secret view. -/
def scanViews (u : Unicode) (source : Str) : Fallible DetectorError (List (ScanView × Bool)) := do
  let normalized ← ScanView.normalize u.nfkc source
  let regularViews ← ScanView.composedViews u normalized
  ScanView.withCollapsed regularViews []

def Scanner.scan (u : Unicode) (scanner : Scanner) (source : Str) :
    Fallible DetectorError (List Finding) := do
  let views ← scanViews u source
  let findings ← gather (scanView u scanner) views
  .ok (dedupBy sameFinding (sortBy findingLe findings))

/-! ## Overlaps -/

/-- The order of `max_by` in `resolve_overlaps`: precedence, then length. -/
def strengthLe (left right : Finding × Action) : Bool :=
  left.2.precedence < right.2.precedence || (left.2.precedence = right.2.precedence &&
    left.1.sourceSpan.stop - left.1.sourceSpan.start
      ≤ right.1.sourceSpan.stop - right.1.sourceSpan.start)

/-- A finished component: its strongest member, on the span of the component. -/
def strongest (start stop : Nat) (component : List (Finding × Action)) : List (Finding × Action) :=
  match maxBy strengthLe component with
  | none => []
  | some (f, action) => [({ f with sourceSpan := ⟨start, stop⟩ }, action)]

/-- The components of sorted findings, after the open one. -/
def mergeFrom (start stop : Nat) (component : List (Finding × Action)) :
    List (Finding × Action) → List (Finding × Action)
  | [] => strongest start stop component
  | f :: rest =>
      if f.1.sourceSpan.start < stop then
        mergeFrom start (max stop f.1.sourceSpan.stop) (component ++ [f]) rest
      else
        strongest start stop component
          ++ mergeFrom f.1.sourceSpan.start f.1.sourceSpan.stop [f] rest

/-- The order of the spans. -/
def spanLe (a b : Finding × Action) : Bool :=
  a.1.sourceSpan.start < b.1.sourceSpan.start || (a.1.sourceSpan.start = b.1.sourceSpan.start &&
    a.1.sourceSpan.stop ≤ b.1.sourceSpan.stop)

def resolveOverlaps (findings : List (Finding × Action)) : List (Finding × Action) :=
  match sortBy spanLe findings with
  | [] => []
  | f :: rest => mergeFrom f.1.sourceSpan.start f.1.sourceSpan.stop [f] rest

end AgentVeil
