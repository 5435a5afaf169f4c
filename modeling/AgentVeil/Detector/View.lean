import AgentVeil.Domain
import AgentVeil.Rust.Collections
import AgentVeil.Rust.Utf8

/-!
# Scan views

The normalized texts of `detector.rs`. A view has one source range for each byte of its text. The
passes over the bytes of a view share one loop, which a rule drives.
-/

namespace AgentVeil

open Rust

inductive DetectorError where
  | invalidNormalizedUtf8
  | invalidSourceMap
  | normalizationLimit
  | invalidPercentEncoding
  deriving DecidableEq, Repr

/-- The Unicode data that the detector relies on: the NFKC form of a character, `char::is_alphanumeric`
and the `\w` of patterns. -/
structure Unicode where
  nfkc : Char → Str
  isAlphanumeric : Char → Bool
  isWord : Char → Bool
  nfkc_of_isAscii : ∀ c, isAscii c = true → nfkc c = [c]
  isAlphanumeric_of_isAscii : ∀ c, isAscii c = true → isAlphanumeric c = isAsciiAlphanumeric c
  isWord_of_isAscii : ∀ c, isAscii c = true → isWord c = (isAsciiAlphanumeric c || c = '_')

/-- The data restricted to ASCII, where every other character is left as it is. -/
def Unicode.ascii : Unicode where
  nfkc c := [c]
  isAlphanumeric := isAsciiAlphanumeric
  isWord c := isAsciiAlphanumeric c || c = '_'
  nfkc_of_isAscii _ _ := rfl
  isAlphanumeric_of_isAscii _ _ := rfl
  isWord_of_isAscii _ _ := rfl

def maxDecodeLayers : Nat := 2
def maxRegularViews : Nat := 8
def maxScanViews : Nat := 12

structure ScanView where
  text : Str
  sourceByByte : List Span
  deriving DecidableEq

def isInvisibleControl (c : Char) : Bool :=
  let n := c.toNat
  n = 0x00AD || (0x200B ≤ n && n ≤ 0x200F) || (0x202A ≤ n && n ≤ 0x202E)
    || (0x2060 ≤ n && n ≤ 0x206F) || n = 0xFEFF

/-! ## Escapes -/

def hex (byte : UInt8) : Option Nat :=
  let n := byte.toNat
  if 48 ≤ n ∧ n ≤ 57 then some (n - 48)
  else if 97 ≤ n ∧ n ≤ 102 then some (n - 97 + 10)
  else if 65 ≤ n ∧ n ≤ 70 then some (n - 65 + 10)
  else none

def parseHexQuad : List UInt8 → Option Nat
  | [a, b, c, d] => do
      let a ← hex a
      let b ← hex b
      let c ← hex c
      let d ← hex d
      some (((a * 16 + b) * 16 + c) * 16 + d)
  | _ => none

/-- `char::from_u32`. -/
def charFromU32 (n : Nat) : Option Char := if n.isValidChar then some (Char.ofNat n) else none

/-- `decode_unicode_escape`, on the bytes after `\u`; the length counts from the backslash. -/
def decodeUnicodeEscape (bytes : List UInt8) : Option (Str × Nat) := do
  let first ← parseHexQuad (bytes.take 4)
  if 0xD800 ≤ first ∧ first ≤ 0xDBFF then
    if (bytes.drop 4).take 2 ≠ [0x5C, 0x75] then none
    else do
      let second ← parseHexQuad ((bytes.drop 6).take 4)
      if 0xDC00 ≤ second ∧ second ≤ 0xDFFF then do
        let c ← charFromU32 (0x10000 + ((first - 0xD800) * 1024 + (second - 0xDC00)))
        some ([c], 12)
      else none
  else if 0xDC00 ≤ first ∧ first ≤ 0xDFFF then none
  else do
    let c ← charFromU32 first
    some ([c], 6)

/-- `decode_escape`, on the bytes after the backslash; the length counts from the backslash. -/
def decodeEscape : List UInt8 → Option (Str × Nat)
  | 0x22 :: _ => some (['"'], 2)
  | 0x5C :: _ => some (['\\'], 2)
  | 0x2F :: _ => some (['/'], 2)
  | 0x62 :: _ => some ([Char.ofNat 0x08], 2)
  | 0x66 :: _ => some ([Char.ofNat 0x0C], 2)
  | 0x6E :: _ => some (['\n'], 2)
  | 0x72 :: _ => some (['\r'], 2)
  | 0x74 :: _ => some (['\t'], 2)
  | 0x75 :: rest => decodeUnicodeEscape rest
  | _ => none

def isTokenByte (byte : UInt8) : Bool :=
  let n := byte.toNat
  (48 ≤ n && n ≤ 57) || (65 ≤ n && n ≤ 90) || (97 ≤ n && n ≤ 122) || n = 95 || n = 45

/-! ## Passes over the bytes -/

/-- What the next bytes become, if they change, and how many they are; the rule also sees the byte
before them. -/
abbrev ByteRule := Option UInt8 → List UInt8 → Option (List UInt8 × Nat)

/-- A backslash, a newline and the blanks after it are dropped. -/
def continuationRule : ByteRule
  | _, 0x5C :: 0x0A :: rest => some ([], 2 + (rest.takeWhile fun b => b = 0x20 || b = 0x09).length)
  | _, 0x5C :: 0x0D :: 0x0A :: rest =>
      some ([], 3 + (rest.takeWhile fun b => b = 0x20 || b = 0x09).length)
  | _, _ => none

/-- A JSON escape becomes its character. -/
def jsonEscapeRule : ByteRule
  | _, 0x5C :: rest => (decodeEscape rest).map fun d => (bytes d.1, d.2)
  | _, _ => none

/-- A percent escape becomes its byte. -/
def percentRule : ByteRule
  | _, 0x25 :: high :: low :: _ => do
      let high ← hex high
      let low ← hex low
      some ([UInt8.ofNat (high * 16 + low)], 3)
  | _, _ => none

/-- A dot between two token bytes is dropped. -/
def separatorRule : ByteRule
  | some prev, 0x2E :: next :: _ =>
      if isTokenByte prev = true ∧ isTokenByte next = true then some ([], 1) else none
  | _, _ => none

namespace ScanView

def combinedSource (view : ScanView) (span : Span) : Fallible DetectorError Span :=
  if span.stop ≤ span.start ∨ view.sourceByByte.length < span.stop then err .invalidSourceMap
  else
    let mappings := (view.sourceByByte.drop span.start).take (span.stop - span.start)
    match (mappings.map Span.start).min?, (mappings.map Span.stop).max? with
    | some start, some stop =>
        if stop ≤ start then err .invalidSourceMap else .ok ⟨start, stop⟩
    | _, _ => err .invalidSourceMap

def finding (view : ScanView) (span : Span) (dataClass : DataClass) (detector : DetectorId)
    (confidence : Confidence) : Fallible DetectorError Finding := do
  let sourceSpan ← view.combinedSource span
  .ok ⟨dataClass, detector, confidence, sourceSpan⟩

def fromBytes (bytes : List UInt8) (mappings : List Span) : Fallible DetectorError ScanView :=
  if bytes.length ≠ mappings.length then err .invalidSourceMap
  else
    match fromUtf8 bytes with
    | none => err .invalidNormalizedUtf8
    | some text => .ok ⟨text, mappings⟩

/-- The bytes given for a changed part, with the source of the part. -/
def replaced (view : ScanView) (output : List UInt8) (span : Span) :
    Fallible DetectorError (List (UInt8 × Span)) :=
  if output = [] then .ok []
  else (view.combinedSource span).map fun source => output.map (·, source)

/-- The loop over the bytes from `index`; `skip` bytes still belong to the last change. It says
whether anything changed, and gives the bytes with their sources. -/
def rewriteFrom (view : ScanView) (rule : ByteRule) :
    Nat → Option UInt8 → Nat → List UInt8 → Fallible DetectorError (Bool × List (UInt8 × Span))
  | _, _, _, [] => .ok (false, [])
  | skip + 1, _, index, b :: rest => rewriteFrom view rule skip (some b) (index + 1) rest
  | 0, prev, index, b :: rest =>
      match rule prev (b :: rest) with
      | some (output, n) => do
          let changed ← view.replaced output ⟨index, index + n⟩
          let tail ← rewriteFrom view rule (n - 1) (some b) (index + 1) rest
          .ok (true, changed ++ tail.2)
      | none => do
          let source ← orPanic view.sourceByByte[index]?
          let tail ← rewriteFrom view rule 0 (some b) (index + 1) rest
          .ok (tail.1, (b, source) :: tail.2)

def rewriteBytes (view : ScanView) (rule : ByteRule) :
    Fallible DetectorError (Bool × List (UInt8 × Span)) :=
  view.rewriteFrom rule 0 none 0 (bytes view.text)

def removeStructuralContinuations (view : ScanView) : Fallible DetectorError ScanView := do
  let output ← view.rewriteBytes continuationRule
  fromBytes (output.2.map Prod.fst) (output.2.map Prod.snd)

def decodeJsonEscapes (view : ScanView) : Fallible DetectorError (Option ScanView) := do
  let output ← view.rewriteBytes jsonEscapeRule
  if output.1 = false then .ok none
  else (fromBytes (output.2.map Prod.fst) (output.2.map Prod.snd)).map some

def decodePercentEncoding (view : ScanView) : Fallible DetectorError (Option ScanView) := do
  let output ← view.rewriteBytes percentRule
  if output.1 = false then .ok none
  else if (fromUtf8 (output.2.map Prod.fst)).isNone then err .invalidPercentEncoding
  else (fromBytes (output.2.map Prod.fst) (output.2.map Prod.snd)).map some

def collapseCandidateSeparators (view : ScanView) : Fallible DetectorError (Option ScanView) := do
  let output ← view.rewriteBytes separatorRule
  if output.1 = false then .ok none
  else (fromBytes (output.2.map Prod.fst) (output.2.map Prod.snd)).map some

/-- The loop over the characters from byte `start`; `sourceOf` gives the source of a character. -/
def canonicalizeFrom (nfkc : Char → Str) (sourceOf : Span → Fallible DetectorError Span) :
    Nat → Str → Fallible DetectorError ScanView
  | _, [] => .ok ⟨[], []⟩
  | start, c :: s =>
      if isInvisibleControl c then canonicalizeFrom nfkc sourceOf (start + c.utf8Size) s
      else do
        let source ← sourceOf ⟨start, start + c.utf8Size⟩
        let rest ← canonicalizeFrom nfkc sourceOf (start + c.utf8Size) s
        .ok ⟨nfkc c ++ rest.text, List.replicate (len (nfkc c)) source ++ rest.sourceByByte⟩

def normalize (nfkc : Char → Str) (source : Str) : Fallible DetectorError ScanView := do
  let view ← canonicalizeFrom nfkc .ok 0 source
  view.removeStructuralContinuations

def canonicalize (nfkc : Char → Str) (view : ScanView) : Fallible DetectorError ScanView := do
  let view ← canonicalizeFrom nfkc view.combinedSource 0 view.text
  view.removeStructuralContinuations

/-! ## Composed views -/

/-- A decoded view is canonicalized before it enters the queue. -/
def canonicalizeDecoded (u : Unicode) : Option ScanView → Fallible DetectorError (List ScanView)
  | none => .ok []
  | some decoded => do
      let view ← canonicalize u.nfkc decoded
      .ok [view]

/-- The views one decoding away from a view. -/
def decodings (u : Unicode) (view : ScanView) : Fallible DetectorError (List ScanView) := do
  let decoded ← view.decodeJsonEscapes
  let escapes ← canonicalizeDecoded u decoded
  let decoded ← view.decodePercentEncoding
  let percent ← canonicalizeDecoded u decoded
  .ok (escapes ++ percent)

/-- The loop of `composed_views`, over a queue of views and their depths; `fuel` bounds the views
taken from the queue. -/
def composeFrom (u : Unicode) (maxOutputBytes : Nat) :
    Nat → List (ScanView × Nat) → List ScanView → List ScanView →
      Fallible DetectorError (List ScanView)
  | _, [], _, views => .ok views
  | 0, _ :: _, _, _ => .error .panic
  | fuel + 1, (view, depth) :: queue, seen, views =>
      if view ∈ seen then composeFrom u maxOutputBytes fuel queue seen views
      else if maxRegularViews ≤ views.length then err .normalizationLimit
      else if maxOutputBytes < len view.text then err .normalizationLimit
      else if maxDecodeLayers ≤ depth then
        composeFrom u maxOutputBytes fuel queue (view :: seen) (views ++ [view])
      else do
        let decoded ← decodings u view
        composeFrom u maxOutputBytes fuel (queue ++ decoded.map (·, depth + 1)) (view :: seen)
          (views ++ [view])

/-- `composed_views`: at most one view, two of depth one and four of depth two enter the queue. -/
def composedViews (u : Unicode) (root : ScanView) : Fallible DetectorError (List ScanView) :=
  composeFrom u (max (root.sourceByByte.length * 4) 4) 7 [(root, 0)] [] []

/-- The views of a scan: every regular view, followed by its collapsed form. -/
def withCollapsed : List ScanView → List (ScanView × Bool) →
    Fallible DetectorError (List (ScanView × Bool))
  | [], views => .ok views
  | view :: rest, views =>
      if maxScanViews ≤ views.length then err .normalizationLimit
      else do
        match ← view.collapseCandidateSeparators with
        | none => withCollapsed rest (views ++ [(view, false)])
        | some collapsed =>
            if maxScanViews ≤ views.length + 1 then err .normalizationLimit
            else withCollapsed rest (views ++ [(view, false), (collapsed, true)])

end ScanView

end AgentVeil
