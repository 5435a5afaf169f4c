import AgentVeil.Rust.Text
import AgentVeil.Rust.Utf8
import AgentVeil.Rust.Collections
import AgentVeil.Rust.Regex
import AgentVeil.Rust.Json
import AgentVeil.Domain
import AgentVeil.Policy
import AgentVeil.Ledger
import AgentVeil.Ledger.Lemmas.Issue
import AgentVeil.Ledger.History
import AgentVeil.Ledger.Lemmas.Record
import AgentVeil.Ledger.Theorems
import AgentVeil.Payload
import AgentVeil.Payload.Targets
import AgentVeil.Payload.Lemmas.Untracked
import AgentVeil.Payload.Lemmas.Declared
import AgentVeil.Payload.Lemmas.Items
import AgentVeil.Payload.Lemmas.Replay
import AgentVeil.Payload.Theorems
import AgentVeil.Detector.View
import AgentVeil.Detector.Scanner
import AgentVeil.Detector.Lemmas.Views
import AgentVeil.Detector.Lemmas.Findings
import AgentVeil.Detector.Lemmas.Overlaps
import AgentVeil.Detector.Theorems
import AgentVeil.Detector.Lemmas.Segments
import AgentVeil.Detector.Lemmas.Separators
import AgentVeil.Detector.Coverage
import AgentVeil.Engine
import AgentVeil.Engine.Lemmas.Plan
import AgentVeil.Engine.Lemmas.Verdict
import AgentVeil.Engine.Lemmas.Rewrite
import AgentVeil.Engine.Lemmas.Apply
import AgentVeil.Engine.Lemmas.Protect
import AgentVeil.Engine.Lemmas.Issues
import AgentVeil.Engine.Theorems
import AgentVeil.Detector.Lemmas.PrivateKeys
import AgentVeil.Detector.Lemmas.Addresses
import AgentVeil.Sse
import AgentVeil.Sse.Lemmas.Framing
import AgentVeil.Sse.Theorems
import AgentVeil.Sse.Lemmas.Leaves
import AgentVeil.Sse.Lemmas.Lines
import AgentVeil.Sse.Lemmas.Restored
import AgentVeil.Payload.Lemmas.Errors
import AgentVeil.Engine.Lemmas.Errors
import AgentVeil.Engine.Errors
import AgentVeil.Audit
import AgentVeil.Gateway
import AgentVeil.Gateway.Responses
import AgentVeil.Gateway.Lemmas.Course
import AgentVeil.Gateway.Lemmas.Egress
import AgentVeil.Gateway.Theorems
import AgentVeil.Ledger.Lemmas.Rename
import AgentVeil.Payload.Lemmas.Rewritten
import AgentVeil.Engine.Lemmas.Corresponds
import AgentVeil.Engine.Noninterference
import AgentVeil.Detector.Resolution
import AgentVeil.Detector.Configured
import AgentVeil.Detector.Lemmas.Passes
import AgentVeil.Detector.SourceMaps
import AgentVeil.Detector.Composition
import AgentVeil.Detector.Escapes
import AgentVeil.Detector.Lemmas.Isolated
import AgentVeil.Detector.Tokens
import AgentVeil.Ledger.Invariants
import AgentVeil.Ledger.Lru
import AgentVeil.Sse.Limit
import AgentVeil.Detector.Terms
import AgentVeil.Sse.Relay
import AgentVeil.Audit.Records
import AgentVeil.Gateway.Records
import AgentVeil.Gateway.Activity
import AgentVeil.Engine.Stricter
import AgentVeil.Payload.Lens
import AgentVeil.Payload.Shapes
import AgentVeil.Payload.Language
import AgentVeil.Rust.Splice
import AgentVeil.Engine.Liveness
import AgentVeil.Engine.Replay
import AgentVeil.Engine.Retention
import AgentVeil.Gateway.Confinement
import AgentVeil.Gateway.Dashboard
import AgentVeil.Gateway.Progress
import AgentVeil.Gateway.Relay
import AgentVeil.Gateway.Sessions
import AgentVeil.Detector.Invisible
import AgentVeil.Engine.Invisible
import AgentVeil.Gateway.Models
import AgentVeil.Engine.Transcripts
