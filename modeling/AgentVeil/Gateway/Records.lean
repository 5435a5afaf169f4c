import AgentVeil.Audit.Records
import AgentVeil.Gateway.Theorems

/-!
# The audit file of a gateway

Whatever the order of the turns, the file of a gateway is that of a list of calls on its sink, and the
calls that are acknowledged are the events that the requests show.
-/

namespace AgentVeil

open Rust

variable {ι R : Type} [DecidableEq ι] [RandomSource R] {state : GatewayState}
  {requests : ι → Request} {engine : PrivacyEngine R} {file : List UInt8}
  {meets : Gateway ι R → ι → Choice → Prop} {gateway : Gateway ι R}

/-- The events whose calls are acknowledged, in order. -/
def acknowledged (toVec : AuditEvent → Option (List UInt8)) (writes : List AuditWrite) :
    List AuditEvent :=
  writes.filterMap fun w =>
    match AuditSink.write toVec w.event w.fate with
    | (.ok (), _) => some w.event
    | (.error _, _) => none

/-- A row that is not acknowledged was refused before its call, or its call failed. -/
theorem appended_unaudited {request : Request} {choice : Choice} {handler handler' : Handler}
    {shared shared' : Shared R} {call : AuditCall} {appended : List UInt8}
    (move : state.responses request choice handler shared
      = some (.unaudited call appended, handler', shared')) :
    appended = [] ∨ ∃ event fate e, AuditSink.write state.toVec event fate = (.error e, appended) := by
  unfold GatewayState.responses at move
  split at move
  · split at move
    · cases move
    · cases move
  · split at move
    · cases move
    · cases move
  · split at move
    · cases move
    · cases move
    · cases move
  · split at move
    · cases move
      exact .inl rfl
    · split at move
      · cases move
        exact .inr ⟨_, _, _, ‹_›⟩
      · cases move
  · cases move
  · cases move
  · cases move
  · cases move
  · split at move
    · cases move
    · cases move
  · cases move
  · cases move
  · cases move
  · cases move
  · cases move

/-- The file of a gateway is that of calls on its sink; the acknowledged ones are those shown. -/
theorem file_writes (h : Tasks.Run (state.turns requests) meets (Gateway.new engine file) gateway) :
    ∃ writes, gateway.shared.audit.file = writeAll state.toVec file writes ∧
      acknowledged state.toVec writes = rows (gateway.log.map Prod.snd) := by
  apply h.shared_invariant (I := fun shared log =>
    ∃ writes, shared.audit.file = writeAll state.toVec file writes ∧
      acknowledged state.toVec writes = rows (log.map Prod.snd))
  · exact ⟨[], by simp [Gateway.new, Tasks.start, writeAll], rfl⟩
  intro i choice handler shared log o handler' shared' hinv move
  obtain ⟨writes, hfile, hack⟩ := hinv
  -- a turn that shows no row leaves the file as it is
  have same : shared'.audit = shared.audit → rows [o] = [] →
      ∃ writes, shared'.audit.file = writeAll state.toVec file writes ∧
        acknowledged state.toVec writes = rows ((log ++ [(i, o)]).map Prod.snd) := by
    intro haudit hrows
    refine ⟨writes, by rw [haudit, hfile], ?_⟩
    rw [List.map_append, rows_append, hack, List.map_singleton, hrows, List.append_nil]
  have one : ∀ w : AuditWrite, shared'.audit.file = shared.audit.file
        ++ (AuditSink.write state.toVec w.event w.fate).2 →
      acknowledged state.toVec [w] = rows [o] →
      ∃ writes, shared'.audit.file = writeAll state.toVec file writes ∧
        acknowledged state.toVec writes = rows ((log ++ [(i, o)]).map Prod.snd) := by
    intro w haudit hrows
    refine ⟨writes ++ [w], ?_, ?_⟩
    · rw [writeAll_append, haudit, hfile]
      simp [writeAll]
    · rw [List.map_append, rows_append, ← hack, List.map_singleton, ← hrows]
      simp [acknowledged]
  cases touches move with
  | @audited event fate appended written =>
      apply one ⟨event, fate⟩
      · rw [written]
      · simp [acknowledged, written, rows]
  | @unaudited call appended =>
      rcases appended_unaudited move with rfl | ⟨event, fate, e, written⟩
      · exact same (by simp) rfl
      · apply one ⟨event, fate⟩
        · rw [written]
        · simp [acknowledged, written, rows]
  | passed plain =>
      rcases plain with rfl | rfl | ⟨_, rfl⟩ | ⟨_, rfl⟩
      · exact same rfl rfl
      · exact same rfl rfl
      · exact same rfl rfl
      · exact same rfl rfl
  | _ => exact same rfl rfl

theorem file_writes_demo : ∃ (gateway : Gateway Nat CounterRandom) (writes : List AuditWrite),
    gateway.log.any (·.2.isSent) = true ∧
      gateway.shared.audit.file = writeAll demoGateway.toVec [] writes ∧
      acknowledged demoGateway.toVec writes = rows (gateway.log.map Prod.snd) := by
  obtain ⟨gateway, hreach, hsent⟩ := exists_sent
  obtain ⟨writes, hfile, hack⟩ := file_writes hreach
  exact ⟨gateway, writes, hsent, hfile, hack⟩

end AgentVeil
