import AgentVeil.Gateway.Activity
import AgentVeil.Gateway.Theorems

/-!
# The dashboard of a gateway

Whatever the order of the turns, the activity of a gateway is that of the rows its requests have
written: every row of a request is recorded once, in the order of its request, or its handler is about
to record it. So the dashboard shows each request as its last row says.
-/

namespace AgentVeil

open Rust

/-! ## Rows and records -/

/-- The event that the handler has written and still has to record. -/
def Handler.unrecorded : Handler → List AuditEvent
  | .recording _ event _ => [event]
  | _ => []

theorem unrecorded_afterAudit (call : AuditCall) (next : Next) (written : Bool) :
    (afterAudit call next written).unrecorded = [] := by
  cases next with
  | respond | relay => rfl
  | send =>
      cases written with
      | true => rfl
      | false => rfl

/-- What a turn records: what it leaves unrecorded is what was unrecorded and what it wrote, except for
that. -/
structure Records {R : Type} (handler handler' : Handler) (shared shared' : Shared R) (o : Observation)
    (done : List AuditEvent) : Prop where
  rows : handler.unrecorded ++ rows [o] = done ++ handler'.unrecorded
  activity : shared'.dashboardActivity = done.foldl recordDashboardActivity shared.dashboardActivity
  recording : ∀ event ∈ done, ∃ call next, handler = .recording call event next

variable {ι R : Type} [RandomSource R] {state : GatewayState} {requests : ι → Request}
  {engine : PrivacyEngine R} {file : List UInt8}

theorem records {request : Request} {choice : Choice} {handler handler' : Handler}
    {shared shared' : Shared R} {o : Observation}
    (move : state.responses request choice handler shared = some (o, handler', shared')) :
    ∃ done, Records handler handler' shared shared' o done := by
  unfold GatewayState.responses at move
  split at move
  · split at move
    · cases move; exact ⟨[], rfl, rfl, by simp⟩
    · cases move; exact ⟨[], rfl, rfl, by simp⟩
  · split at move
    · cases move; exact ⟨[], rfl, rfl, by simp⟩
    · cases move; exact ⟨[], rfl, rfl, by simp⟩
  · split at move
    · cases move; exact ⟨[], rfl, rfl, by simp⟩
    · cases move; exact ⟨[], rfl, rfl, by simp⟩
    · cases move; exact ⟨[], rfl, rfl, by simp⟩
  · split at move
    · cases move; exact ⟨[], rfl, rfl, by simp⟩
    · split at move
      · cases move; exact ⟨[], rfl, rfl, by simp⟩
      · cases move; exact ⟨[], rfl, rfl, by simp⟩
  · cases move
    exact ⟨[], (unrecorded_afterAudit _ _ _).symm, rfl, by simp⟩
  · rename_i call event next
    cases move
    refine ⟨[event], ?_, rfl, ?_⟩
    · rw [unrecorded_afterAudit]
      rfl
    · intro event' h
      exact ⟨call, next, by rw [List.mem_singleton.mp h]⟩
  · cases move; exact ⟨[], rfl, rfl, by simp⟩
  · cases move; exact ⟨[], rfl, rfl, by simp⟩
  · split at move
    · cases move
    · cases move; exact ⟨[], rfl, rfl, by simp⟩
  · cases move; exact ⟨[], rfl, rfl, by simp⟩
  · cases move; exact ⟨[], rfl, rfl, by simp⟩
  · cases move; exact ⟨[], rfl, rfl, by simp⟩
  · cases move; exact ⟨[], rfl, rfl, by simp⟩
  · cases move

/-! ## Runs -/

variable [DecidableEq ι] {meets : Gateway ι R → ι → Choice → Prop} {gateway : Gateway ι R}

theorem events_map (i j : ι) (done : List AuditEvent) :
    events i (done.map (j, ·)) = if j = i then done else [] := by
  induction done with
  | nil => simp [events]
  | cons event done ih =>
      by_cases h : j = i
      · simpa [events, h] using ih
      · simp [events, h]

/-- The activity is that of rows, which are those that the requests have written. -/
theorem activity_eq (h : Tasks.Run (state.turns requests) meets (Gateway.new engine file) gateway) :
    ∃ recorded : List (ι × AuditEvent),
      gateway.shared.dashboardActivity = recordAll (recorded.map Prod.snd) ∧
      (∀ i, rows (events i gateway.log) = events i recorded ++ (gateway.locals i).unrecorded) ∧
      ∀ row ∈ recorded, ∃ n outcome, opening n outcome <+: events row.1 gateway.log ∧
        row.2.Of ⟨n, (ruling outcome).1, (ruling outcome).2⟩ := by
  induction h with
  | start => exact ⟨[], rfl, fun i => rfl, by simp⟩
  | @turn t t' i c run _ move ih =>
      obtain ⟨recorded, hactivity, hrows, hof⟩ := ih
      obtain ⟨o, handler', shared', hnext, rfl⟩ := Tasks.turn_eq_some.mp move
      obtain ⟨done, hdone⟩ := records hnext
      refine ⟨recorded ++ done.map (i, ·), ?_, fun j => ?_, ?_⟩
      · have hsnd : (done.map (i, ·)).map Prod.snd = done := by simp [Function.comp_def]
        rw [hdone.activity, hactivity, List.map_append, hsnd, recordAll, recordAll, List.foldl_append]
      · rw [events_append, events_append, rows_append, hrows j, events_map]
        by_cases hj : i = j
        · subst hj
          simp only [if_pos, events_self, Function.update_self]
          rw [List.append_assoc, hdone.rows, List.append_assoc]
        · simp [if_neg hj, events_other hj, Function.update_of_ne (Ne.symm hj), rows]
      · intro row hrow
        rcases List.mem_append.mp hrow with hrow | hrow
        · obtain ⟨n, outcome, hpre, hrow⟩ := hof row hrow
          rw [events_append]
          exact ⟨n, outcome, hpre.trans (List.prefix_append _ _), hrow⟩
        · -- what the turn records is about the request that its handler serves
          obtain ⟨event, hevent, rfl⟩ := List.mem_map.mp hrow
          obtain ⟨call, next, hlocal⟩ := hdone.recording event hevent
          have hcourse := course run i
          rw [hlocal] at hcourse
          generalize hos : events i t.log = os at hcourse
          cases hcourse with
          | recording asks valid =>
              obtain ⟨_, hseq, hdecision, hfindings, _⟩ := auditEvent_ok valid
              obtain ⟨n, outcome, hpre, hcall⟩ := asks.of
              refine ⟨n, outcome, ?_, ?_⟩
              · rw [events_append, hos, List.append_assoc]
                exact hpre.trans (List.prefix_append _ _)
              · exact ⟨hseq.trans hcall.1, hdecision.trans hcall.2.1, hfindings.trans hcall.2.2⟩

omit [DecidableEq ι] in
/-- More events keep an activity current. -/
theorem Current.records {audited : ι → AuditedRequest} {before after : List (ι × AuditEvent)}
    {activity : List DashboardActivity} (h : Current audited before activity)
    (hseq : Numbered audited (before ++ after)) (hafter : ∀ row ∈ after, row.2.Of (audited row.1)) :
    Current audited (before ++ after)
      ((after.map Prod.snd).foldl recordDashboardActivity activity) := by
  induction after generalizing before activity with
  | nil =>
      rw [List.append_nil]
      exact h
  | cons row after ih =>
      obtain ⟨hrow, hafter⟩ := List.forall_mem_cons.mp hafter
      rw [List.append_cons] at hseq ⊢
      have hfirst : Numbered audited (before ++ [row]) := fun a ha b hb =>
        hseq a (List.mem_append_left _ ha) b (List.mem_append_left _ hb)
      exact ih (h.record hfirst hrow) hseq hafter

/-- In every run of fewer than `2 ^ 64` requests, the dashboard is current: its activity is that of the
rows that the requests have written, each recorded once and in order, except for the one its handler is
about to record; there is one entry for each request that is shown, from its first row on until 64 others
have come; and the entry shows the last row recorded of its request, with the decision and the findings
of that request. -/
theorem dashboard_current
    (h : Tasks.Run (state.turns requests) meets (Gateway.new engine file) gateway)
    (hfew : numbers gateway.log < 2 ^ 64) : ∃ recorded : List (ι × AuditEvent),
      (∀ i, rows (events i gateway.log) = events i recorded ++ (gateway.locals i).unrecorded) ∧
      gateway.shared.dashboardActivity = recordAll (recorded.map Prod.snd) ∧
      gateway.shared.dashboardActivity.map DashboardActivity.requestSequence =
        (queued (recorded.map Prod.fst)).map
          (fun i => (auditedRequest (events i gateway.log)).requestSequence) ∧
      (∀ before i after, recorded.map Prod.fst = before ++ i :: after → i ∉ before →
        (after.toFinset.erase i).card < 64 → i ∈ queued (recorded.map Prod.fst)) ∧
      Current (fun i => auditedRequest (events i gateway.log)) recorded
        gateway.shared.dashboardActivity := by
  obtain ⟨recorded, hactivity, hrows, hof⟩ := activity_eq h
  have hopen : ∀ row ∈ recorded,
      (row.1, .numbered (auditedRequest (events row.1 gateway.log)).requestSequence) ∈ gateway.log ∧
        row.2.Of (auditedRequest (events row.1 gateway.log)) := by
    intro row hrow
    obtain ⟨n, outcome, hpre, hrow⟩ := hof row hrow
    rw [auditedRequest_opening hpre]
    exact ⟨mem_events.mp (hpre.subset (by simp [opening])), hrow⟩
  have hseq : Numbered (fun i => auditedRequest (events i gateway.log)) recorded := by
    intro row hrow row' hrow' heq
    have hnumber := (hopen row hrow).1
    simp only at heq
    rw [heq] at hnumber
    exact number_unique h hfew hnumber (hopen row' hrow').1
  have empty : Current (fun i => auditedRequest (events i gateway.log)) [] [] :=
    ⟨Nat.zero_le _, List.nodup_nil, by simp⟩
  refine ⟨recorded, hrows, hactivity, ?_, ?_, ?_⟩
  · rw [hactivity]
    exact queued_recordAll hseq fun row hrow => (hopen row hrow).2
  · intro before i after hsplit hfirst hothers
    rw [hsplit]
    exact mem_queued hfirst hothers
  · rw [hactivity]
    exact empty.records hseq fun row hrow => (hopen row hrow).2

theorem dashboard_current_demo : ∃ (gateway : Gateway Nat CounterRandom)
    (recorded : List (Nat × AuditEvent)), gateway.log.any (·.2.isSent) = true ∧ recorded ≠ [] ∧
      gateway.shared.dashboardActivity = recordAll (recorded.map Prod.snd) ∧
      Current (fun i => auditedRequest (events i gateway.log)) recorded
        gateway.shared.dashboardActivity := by
  obtain ⟨gateway, hreach, hsent, hlen, hshown⟩ := exists_demoSchedule
  have hfew : numbers gateway.log < 2 ^ 64 := by
    have : numbers gateway.log ≤ gateway.log.length := List.countP_le_length
    omega
  obtain ⟨recorded, _, hactivity, _, _, hcurrent⟩ := dashboard_current hreach hfew
  refine ⟨gateway, recorded, any_of_events hsent, ?_, hactivity, hcurrent⟩
  rintro rfl
  rw [hactivity] at hshown
  cases hshown

end AgentVeil
