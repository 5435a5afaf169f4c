import AgentVeil.Audit.Records
import AgentVeil.Gateway.Lemmas.Course
import Mathlib.Data.Finset.Card
import Mathlib.Data.List.Induction
import Mathlib.Data.List.Nodup

/-!
# Dashboard activity

An entry is found by the number of its request and brought up to date, or put in front of the others.
So each entry shows the last event of its request, also when the entry was dropped in between.
-/

namespace AgentVeil

open Rust

/-- What all events of a request have in common. -/
structure AuditedRequest where
  requestSequence : UInt64
  decision : AuditDecision
  findings : List AuditFinding

/-- The event is one of the request. -/
structure AuditEvent.Of (event : AuditEvent) (request : AuditedRequest) : Prop where
  requestSequence : event.requestSequence = request.requestSequence
  decision : event.decision = request.decision
  findings : event.findings = request.findings

/-- The activity after the events. -/
def recordAll (events : List AuditEvent) : List DashboardActivity :=
  events.foldl recordDashboardActivity []

/-! ## One event -/

/-- The entry with what the event says of its request. -/
def DashboardActivity.refresh (event : AuditEvent) (item : DashboardActivity) : DashboardActivity :=
  { item with
    upstreamOutcome := event.upstreamOutcome
    scanLatencyMs := event.scanLatencyMs }

theorem updateActivity_none {event : AuditEvent} {activity : List DashboardActivity}
    (h : updateActivity event activity = none) :
    ∀ item ∈ activity, item.requestSequence ≠ event.requestSequence := by
  induction activity with
  | nil => nofun
  | cons item activity ih =>
      simp only [updateActivity] at h
      split at h
      · cases h
      · rename_i hne
        exact List.forall_mem_cons.mpr ⟨hne, ih (Option.map_eq_none_iff.mp h)⟩

/-- The first entry of the request is brought up to date, and nothing else changes. -/
theorem updateActivity_some {event : AuditEvent} {activity activity' : List DashboardActivity}
    (h : updateActivity event activity = some activity') :
    ∃ before item after, activity = before ++ item :: after ∧
      item.requestSequence = event.requestSequence ∧
      activity' = before ++ item.refresh event :: after := by
  induction activity generalizing activity' with
  | nil => cases h
  | cons item activity ih =>
      simp only [updateActivity] at h
      split at h
      · rename_i heq
        cases h
        exact ⟨[], item, activity, rfl, heq, rfl⟩
      · obtain ⟨activity'', hrest, rfl⟩ := Option.map_eq_some_iff.mp h
        obtain ⟨before, item', after, rfl, heq, rfl⟩ := ih hrest
        exact ⟨item :: before, item', after, rfl, heq, rfl⟩

/-! ## All events -/

section Current

variable {ι : Type} (requests : ι → AuditedRequest) (events : List (ι × AuditEvent))

/-- The entry shows request `i` as its last event says. -/
def Shows (item : DashboardActivity) (i : ι) : Prop :=
  ∃ before event after, events = before ++ (i, event) :: after ∧ (∀ e ∈ after, e.1 ≠ i) ∧
    item.upstreamOutcome = event.upstreamOutcome ∧ item.scanLatencyMs = event.scanLatencyMs

/-- The activity has at most 64 entries, no two of one request, and each shows the last event and the
own decision and findings of its request. -/
structure Current (activity : List DashboardActivity) : Prop where
  bounded : activity.length ≤ 64
  unique : (activity.map DashboardActivity.requestSequence).Nodup
  current : ∀ item ∈ activity, ∃ i, item.requestSequence = (requests i).requestSequence ∧
    item.decision = (requests i).decision ∧ item.findings = (requests i).findings ∧
    Shows events item i

variable {requests events}

/-- The numbers tell the requests of the events apart. -/
def Numbered (requests : ι → AuditedRequest) (events : List (ι × AuditEvent)) : Prop :=
  ∀ e ∈ events, ∀ e' ∈ events,
    (requests e.1).requestSequence = (requests e'.1).requestSequence → e.1 = e'.1

theorem Shows.mem {item : DashboardActivity} {i : ι} (h : Shows events item i) :
    ∃ event, (i, event) ∈ events := by
  obtain ⟨before, event, after, rfl, _⟩ := h
  exact ⟨event, by simp⟩

/-- An event of another request leaves what an entry shows. -/
theorem Shows.other {item : DashboardActivity} {i j : ι} (h : Shows events item i) (hne : j ≠ i)
    (event : AuditEvent) : Shows (events ++ [(j, event)]) item i := by
  obtain ⟨before, last, after, rfl, hafter, houtcome, hlatency⟩ := h
  refine ⟨before, last, after ++ [(j, event)], by simp, ?_, houtcome, hlatency⟩
  intro e he
  rcases List.mem_append.mp he with he | he
  · exact hafter e he
  · rw [List.mem_singleton.mp he]
    exact hne

theorem Shows.last {item : DashboardActivity} {i : ι} {event : AuditEvent}
    (houtcome : item.upstreamOutcome = event.upstreamOutcome)
    (hlatency : item.scanLatencyMs = event.scanLatencyMs) :
    Shows (events ++ [(i, event)]) item i :=
  ⟨events, event, [], rfl, nofun, houtcome, hlatency⟩

/-- One more event. -/
theorem Current.record {activity : List DashboardActivity} (h : Current requests events activity)
    {i : ι} {event : AuditEvent} (hseq : Numbered requests (events ++ [(i, event)]))
    (hevent : event.Of (requests i)) :
    Current requests (events ++ [(i, event)]) (recordDashboardActivity activity event) := by
  -- an entry of another request
  have hother : ∀ item ∈ activity, item.requestSequence ≠ event.requestSequence →
      ∃ j, item.requestSequence = (requests j).requestSequence ∧
        item.decision = (requests j).decision ∧ item.findings = (requests j).findings ∧
        Shows (events ++ [(i, event)]) item j := by
    intro item hitem hne
    obtain ⟨j, hj, hdecision, hfindings, hshows⟩ := h.current item hitem
    refine ⟨j, hj, hdecision, hfindings, hshows.other ?_ event⟩
    rintro rfl
    exact hne (hj.trans hevent.requestSequence.symm)
  unfold recordDashboardActivity
  cases hupdate : updateActivity event activity with
  | some activity' =>
      obtain ⟨before, item, after, rfl, hitem, rfl⟩ := updateActivity_some hupdate
      have hrest : ∀ x ∈ before ++ after, x.requestSequence ≠ event.requestSequence := by
        have hunique := h.unique
        rw [List.map_append, List.map_cons, List.nodup_middle, List.nodup_cons, ← List.map_append]
          at hunique
        intro x hx heq
        exact hunique.1 (List.mem_map.mpr ⟨x, hx, heq.trans hitem.symm⟩)
      constructor
      · simpa using h.bounded
      · simpa [DashboardActivity.refresh] using h.unique
      · intro x hx
        rcases List.mem_append.mp hx with hx | hx
        · exact hother x (List.mem_append_left _ hx) (hrest x (List.mem_append_left _ hx))
        · rcases List.mem_cons.mp hx with rfl | hx
          · obtain ⟨j, hj, hdecision, hfindings, hshows⟩ := h.current item (by simp)
            obtain ⟨last, hlast⟩ := hshows.mem
            obtain rfl : j = i := hseq (j, last) (List.mem_append_left _ hlast) (i, event) (by simp)
              (hj.symm.trans (hitem.trans hevent.requestSequence))
            exact ⟨j, hj, hdecision, hfindings, .last rfl rfl⟩
          · exact hother x (by simp [hx]) (hrest x (List.mem_append_right _ hx))
  | none =>
      have hnone := updateActivity_none hupdate
      have hsub := List.take_sublist dashboardActivityLimit
        ((⟨event.requestSequence, event.timestampUnixMs, event.decision, event.findings,
          event.upstreamOutcome, event.scanLatencyMs⟩ : DashboardActivity) :: activity)
      constructor
      · exact List.length_take_le _ _
      · apply (hsub.map _).nodup
        rw [List.map_cons, List.nodup_cons]
        refine ⟨?_, h.unique⟩
        intro hmem
        obtain ⟨item, hitem, heq⟩ := List.mem_map.mp hmem
        exact hnone item hitem heq
      · intro x hx
        rcases List.mem_cons.mp (hsub.subset hx) with rfl | hx
        · exact ⟨i, hevent.requestSequence, hevent.decision, hevent.findings, .last rfl rfl⟩
        · exact hother x hx (hnone x hx)

/-- Whatever the order in which the requests record their events, the activity is current. -/
theorem current_recordAll {requests : ι → AuditedRequest} {events : List (ι × AuditEvent)}
    (hseq : Numbered requests events) (hevents : ∀ e ∈ events, e.2.Of (requests e.1)) :
    Current requests events (recordAll (events.map Prod.snd)) := by
  induction events using List.reverseRecOn with
  | nil => exact ⟨Nat.zero_le _, List.nodup_nil, nofun⟩
  | append_singleton events e ih =>
      obtain ⟨hbefore, he⟩ := List.forall_mem_append.mp hevents
      have hseq' : Numbered requests events := fun a ha b hb =>
        hseq a (List.mem_append_left _ ha) b (List.mem_append_left _ hb)
      have hnow := (ih hseq' hbefore).record hseq (he e (List.mem_singleton_self e))
      rw [recordAll, List.map_append, List.foldl_append]
      exact hnow

end Current

def demoAudited (i : Nat) : AuditedRequest := ⟨UInt64.ofNat i, .allowed, []⟩

def demoRow (outcome : UpstreamOutcome) (i : Nat) : Nat × AuditEvent :=
  (i, { sampleEvent with requestSequence := UInt64.ofNat i, upstreamOutcome := outcome })

/-- More requests than there are entries, and then the first of them and the last once more. -/
def demoRows : List (Nat × AuditEvent) :=
  (List.range 66).map (demoRow .pending) ++ [demoRow .started 0, demoRow .failed 65]

theorem current_demo :
    Current demoAudited demoRows (recordAll (demoRows.map Prod.snd)) ∧
      (recordAll (demoRows.map Prod.snd)).length = 64 := by
  have hrow : ∀ e ∈ demoRows, e.1 < 66 ∧ e.2.Of (demoAudited e.1) := by
    intro e he
    rcases List.mem_append.mp he with he | he
    · obtain ⟨i, hi, rfl⟩ := List.mem_map.mp he
      exact ⟨List.mem_range.mp hi, rfl, rfl, rfl⟩
    · rcases List.mem_pair.mp he with rfl | rfl
      · exact ⟨by decide, rfl, rfl, rfl⟩
      · exact ⟨by decide, rfl, rfl, rfl⟩
  refine ⟨current_recordAll (fun e he e' he' heq => ?_) fun e he => (hrow e he).2, by decide +kernel⟩
  have := congrArg UInt64.toNat heq
  simp only [demoAudited, UInt64.toNat_ofNat'] at this
  have := (hrow e he).1
  have := (hrow e' he').1
  omega

/-! ## Which requests are shown -/

section Queue

variable {ι : Type} [DecidableEq ι]

/-- A request that is not shown comes to the front, and the last may drop out. -/
def enqueue (queue : List ι) (i : ι) : List ι :=
  if i ∈ queue then queue else (i :: queue).take dashboardActivityLimit

/-- The requests shown after the events of these requests. -/
def queued (ids : List ι) : List ι := ids.foldl enqueue []

theorem enqueue_subset (queue : List ι) (i : ι) : enqueue queue i ⊆ i :: queue := by
  unfold enqueue
  split
  · exact List.subset_cons_self i queue
  · exact List.take_subset _ _

theorem queued_append_singleton (ids : List ι) (i : ι) : queued (ids ++ [i]) = enqueue (queued ids) i := by
  simp [queued]

theorem queued_subset (ids : List ι) : queued ids ⊆ ids := by
  induction ids using List.reverseRecOn with
  | nil => exact List.nil_subset _
  | append_singleton ids i ih =>
      rw [queued_append_singleton]
      intro j hj
      rcases List.mem_cons.mp (enqueue_subset _ _ hj) with rfl | hj
      · simp
      · exact List.mem_append_left _ (ih hj)

/-- A request is shown from its first event on until 64 others have come. -/
theorem mem_queued {before after : List ι} {i : ι} (hfirst : i ∉ before)
    (hfew : (after.toFinset.erase i).card < dashboardActivityLimit) :
    i ∈ queued (before ++ i :: after) := by
  -- in front of it are others that have come since, each once
  suffices h : ∃ front back, queued (before ++ i :: after) = front ++ i :: back ∧ front.Nodup ∧
      front.toFinset ⊆ after.toFinset.erase i by
    obtain ⟨front, back, hqueue, _⟩ := h
    simp [hqueue]
  induction after using List.reverseRecOn with
  | nil =>
      refine ⟨[], (queued before).take (dashboardActivityLimit - 1), ?_, List.nodup_nil, by simp⟩
      rw [queued_append_singleton, enqueue, if_neg fun h => hfirst (queued_subset before h)]
      rfl
  | append_singleton after j ih =>
      have hmono : after.toFinset.erase i ⊆ (after ++ [j]).toFinset.erase i :=
        Finset.erase_subset_erase i fun x hx => by
          simp only [List.mem_toFinset] at hx ⊢
          exact List.mem_append_left _ hx
      obtain ⟨front, back, hqueue, hnodup, hsub⟩ := ih ((Finset.card_le_card hmono).trans_lt hfew)
      rw [← List.cons_append, ← List.append_assoc, queued_append_singleton, hqueue, enqueue]
      split
      · exact ⟨front, back, rfl, hnodup, hsub.trans hmono⟩
      · rename_i hnew
        obtain ⟨hfront, hback⟩ := not_or.mp (List.mem_append.not.mp hnew)
        have hji : j ≠ i := fun h => hback (by simp [h])
        have hsub' : (j :: front).toFinset ⊆ (after ++ [j]).toFinset.erase i := by
          intro x hx
          rcases List.mem_cons.mp (List.mem_toFinset.mp hx) with rfl | hx
          · simp [hji]
          · exact hmono (hsub (List.mem_toFinset.mpr hx))
        have hnodup' : (j :: front).Nodup := List.nodup_cons.mpr ⟨hfront, hnodup⟩
        have hlen : (j :: front).length < dashboardActivityLimit := by
          rw [← List.toFinset_card_of_nodup hnodup']
          exact (Finset.card_le_card hsub').trans_lt hfew
        refine ⟨j :: front, back.take (dashboardActivityLimit - (j :: front).length - 1), ?_, hnodup',
          hsub'⟩
        rw [← List.cons_append, List.take_append, List.take_of_length_le hlen.le]
        obtain ⟨n, hn⟩ : ∃ n, dashboardActivityLimit - (j :: front).length = n + 1 :=
          ⟨_, (Nat.succ_pred_eq_of_pos (Nat.sub_pos_of_lt hlen)).symm⟩
        rw [hn]
        rfl

/-- The entries are those of the requests shown, in their order. -/
theorem queued_recordAll {requests : ι → AuditedRequest} {events : List (ι × AuditEvent)}
    (hseq : Numbered requests events) (hevents : ∀ e ∈ events, e.2.Of (requests e.1)) :
    (recordAll (events.map Prod.snd)).map DashboardActivity.requestSequence =
      (queued (events.map Prod.fst)).map fun i => (requests i).requestSequence := by
  induction events using List.reverseRecOn with
  | nil => rfl
  | append_singleton events e ih =>
      obtain ⟨hbefore, he⟩ := List.forall_mem_append.mp hevents
      have he := (he e (List.mem_singleton_self e)).requestSequence
      have hnow := ih (fun a ha b hb => hseq a (List.mem_append_left _ ha) b (List.mem_append_left _ hb))
        hbefore
      have hmem : e.2.requestSequence ∈
          (recordAll (events.map Prod.snd)).map DashboardActivity.requestSequence ↔
            e.1 ∈ queued (events.map Prod.fst) := by
        rw [hnow, he]
        constructor
        · intro h
          obtain ⟨j, hj, hnumber⟩ := List.mem_map.mp h
          obtain ⟨e', he', rfl⟩ := List.mem_map.mp (queued_subset _ hj)
          rwa [← hseq e' (List.mem_append_left _ he') e (by simp) hnumber]
        · intro h
          exact List.mem_map_of_mem h
      rw [List.map_append, recordAll, List.foldl_append, ← recordAll, List.map_append]
      simp only [List.map_cons, List.map_nil, List.foldl_cons, List.foldl_nil]
      rw [queued_append_singleton, enqueue, recordDashboardActivity]
      cases hupdate : updateActivity e.2 (recordAll (events.map Prod.snd)) with
      | some activity =>
          obtain ⟨before, item, after, hactivity, hitem, rfl⟩ := updateActivity_some hupdate
          rw [hactivity] at hnow hmem
          rw [if_pos (hmem.mp (by simp [hitem])), ← hnow]
          simp [DashboardActivity.refresh]
      | none =>
          have hnot : e.1 ∉ queued (events.map Prod.fst) := by
            rw [← hmem]
            intro h
            obtain ⟨item, hitem, heq⟩ := List.mem_map.mp h
            exact updateActivity_none hupdate item hitem heq
          rw [if_neg hnot, List.map_take, List.map_take, List.map_cons, List.map_cons, hnow, he]

end Queue

/-! ## The gateway -/

/-- The decision and the findings that all rows of a request carry. -/
def ruling : Except EngineError ProtectionOutcome → AuditDecision × List AuditFinding
  | .error _ => (.rejected, [])
  | .ok (.blocked summary) => (.blocked, auditFindings (some summary))
  | .ok (.forward forward) => (auditDecision forward.decision, auditFindings (some forward.summary))

/-- The request that a list of events opens. -/
def auditedRequest : List Observation → AuditedRequest
  | .admitted :: .numbered requestSequence :: .protection outcome :: _ =>
      ⟨requestSequence, (ruling outcome).1, (ruling outcome).2⟩
  | _ => ⟨0, .rejected, []⟩

def AuditCall.Of (call : AuditCall) (request : AuditedRequest) : Prop :=
  call.requestSequence = request.requestSequence ∧ call.decision = request.decision ∧
    auditFindings call.summary = request.findings

section Gateway

variable {ι R : Type} [RandomSource R] {state : GatewayState} {request : Request}
  {requests : ι → Request} {engine : PrivacyEngine R} {file : List UInt8}

theorem judge_call (state : GatewayState) (headers : HeaderMap) (eventId : Str)
    (requestSequence : UInt64) (scanLatencyMs : Nat)
    (outcome : Except EngineError ProtectionOutcome) :
    (state.judge headers eventId requestSequence scanLatencyMs outcome).1.Of
      ⟨requestSequence, (ruling outcome).1, (ruling outcome).2⟩ := by
  cases outcome with
  | error e => exact ⟨rfl, rfl, rfl⟩
  | ok outcome =>
      cases outcome with
      | blocked summary => exact ⟨rfl, rfl, rfl⟩
      | forward forward =>
          unfold GatewayState.judge AuditCall.Of
          cases upstreamUrl state.urls state.upstream headers .responses none with
          | error e => exact ⟨rfl, rfl, rfl⟩
          | ok target => exact ⟨rfl, rfl, rfl⟩

/-- Every call of a request is about the request that its events open. -/
theorem Asks.of {os : List Observation} {call : AuditCall} {next : Next}
    (asks : Asks state request os call next) :
    ∃ requestSequence outcome, opening requestSequence outcome <+: os ∧
      call.Of ⟨requestSequence, (ruling outcome).1, (ruling outcome).2⟩ := by
  induction asks with
  | judged admissible => exact ⟨_, _, List.prefix_refl _, judge_call _ _ _ _ _ _⟩
  | @answered os call upstream ws reached asks audits ih =>
      obtain ⟨n, outcome, hpre, hcall⟩ := ih
      refine ⟨n, outcome, hpre.trans ?_, ?_⟩
      · rw [List.append_assoc]
        exact List.prefix_append _ _
      · cases reached with
        | true => exact hcall
        | false => exact hcall

theorem auditedRequest_opening {n : UInt64} {outcome : Except EngineError ProtectionOutcome}
    {os : List Observation} (h : opening n outcome <+: os) :
    auditedRequest os = ⟨n, (ruling outcome).1, (ruling outcome).2⟩ := by
  obtain ⟨rest, rfl⟩ := h
  rfl

/-- What a turn does to the counter and to the activity. -/
inductive Marks (handler : Handler) (shared : Shared R) : Observation → Shared R → Prop where
  | numbered : Marks handler shared (.numbered (shared.requestSequence + 1))
      { shared with requestSequence := shared.requestSequence + 1 }
  | recorded {call event next} (recording : handler = .recording call event next) :
      Marks handler shared .recorded
        { shared with
          dashboardActivity := recordDashboardActivity shared.dashboardActivity event }
  | plain {o shared'} (unnumbered : ∀ n, o ≠ .numbered n)
      (counter : shared'.requestSequence = shared.requestSequence)
      (activity : shared'.dashboardActivity = shared.dashboardActivity) :
      Marks handler shared o shared'

theorem marks {choice : Choice} {handler handler' : Handler} {shared shared' : Shared R}
    {o : Observation}
    (move : state.responses request choice handler shared = some (o, handler', shared')) :
    Marks handler shared o shared' := by
  unfold GatewayState.responses at move
  split at move
  · split at move
    · cases move; exact .plain nofun rfl rfl
    · cases move; exact .plain nofun rfl rfl
  · split at move
    · cases move; exact .plain nofun rfl rfl
    · cases move; exact .numbered
  · split at move
    · cases move; exact .plain nofun rfl rfl
    · cases move; exact .plain nofun rfl rfl
    · cases move; exact .plain nofun rfl rfl
  · split at move
    · cases move; exact .plain nofun rfl rfl
    · split at move
      · cases move; exact .plain nofun rfl rfl
      · cases move; exact .plain nofun rfl rfl
  · cases move; exact .plain nofun rfl rfl
  · cases move; exact .recorded rfl
  · cases move; exact .plain nofun rfl rfl
  · cases move; exact .plain nofun rfl rfl
  · split at move
    · cases move
    · cases move; exact .plain nofun rfl rfl
  · cases move; exact .plain nofun rfl rfl
  · cases move; exact .plain nofun rfl rfl
  · cases move; exact .plain nofun rfl rfl
  · cases move; exact .plain nofun rfl rfl
  · cases move

def Observation.isNumber : Observation → Bool
  | .numbered _ => true
  | _ => false

/-- How many requests have been numbered. -/
def numbers (log : List (ι × Observation)) : Nat := log.countP (·.2.isNumber)

theorem numbers_append (log log' : List (ι × Observation)) :
    numbers (log ++ log') = numbers log + numbers log' := List.countP_append

/-- The counter and the numbers count the requests, modulo the size of the counter. -/
structure Counts (counter : UInt64) (log : List (ι × Observation)) : Prop where
  counter : counter = UInt64.ofNat (numbers log)
  given : ∀ {pre : List (ι × Observation)} {i n post}, log = pre ++ (i, .numbered n) :: post →
    n = UInt64.ofNat (numbers pre + 1)

variable [DecidableEq ι] {meets : Gateway ι R → ι → Choice → Prop} {gateway : Gateway ι R}

theorem counts (h : Tasks.Run (state.turns requests) meets (Gateway.new engine file) gateway) :
    Counts gateway.shared.requestSequence gateway.log := by
  apply h.shared_invariant (I := fun shared log => Counts shared.requestSequence log)
  · exact ⟨rfl, fun hlog => by simp [Gateway.new, Tasks.start] at hlog⟩
  intro j choice handler shared log o handler' shared' hinv move
  obtain ⟨hcounter, hlog⟩ := hinv
  have hmarks := marks move
  constructor
  · rw [numbers_append]
    cases hmarks with
    | numbered => simp [hcounter, numbers, Observation.isNumber]
    | recorded recording => simpa [numbers, Observation.isNumber] using hcounter
    | plain unnumbered counter activity =>
        rw [counter, hcounter]
        cases o with
        | numbered n => exact absurd rfl (unnumbered n)
        | _ => simp [numbers, Observation.isNumber]
  · intro pre i n post hsplit
    rcases List.eq_nil_or_concat post with rfl | ⟨post', last, rfl⟩
    · obtain ⟨rfl, hlast⟩ := List.append_inj' hsplit rfl
      cases hlast
      cases hmarks with
      | numbered => simp [hcounter]
      | plain unnumbered counter activity => exact absurd rfl (unnumbered n)
    · rw [List.concat_eq_append, ← List.cons_append, ← List.append_assoc] at hsplit
      exact hlog (List.append_inj' hsplit rfl).1

/-- No number is given twice before the counter comes round. -/
theorem number_unique (h : Tasks.Run (state.turns requests) meets (Gateway.new engine file) gateway)
    (hfew : numbers gateway.log < 2 ^ 64) {i j : ι} {n : UInt64}
    (hi : (i, .numbered n) ∈ gateway.log) (hj : (j, .numbered n) ∈ gateway.log) : i = j := by
  obtain ⟨pre, post, hpre⟩ := List.append_of_mem hi
  obtain ⟨pre', post', hpre'⟩ := List.append_of_mem hj
  have hn := (counts h).given hpre
  have hn' := (counts h).given hpre'
  have hone : ∀ {l : List (ι × Observation)} {k : ι},
      numbers ((k, .numbered n) :: l) = 1 + numbers l := by
    intro l k
    rw [← List.singleton_append, numbers_append]
    rfl
  have hlen := congrArg numbers hpre
  have hlen' := congrArg numbers hpre'
  rw [numbers_append, hone] at hlen hlen'
  have hsame : numbers pre = numbers pre' := by
    have := congrArg UInt64.toNat (hn.symm.trans hn')
    rw [UInt64.toNat_ofNat', UInt64.toNat_ofNat'] at this
    omega
  rcases List.append_eq_append_iff.mp (hpre.symm.trans hpre') with ⟨as, rfl, has⟩ | ⟨as, rfl, has⟩
  · cases as with
    | nil => cases has; rfl
    | cons a as =>
        obtain ⟨rfl, _⟩ := List.cons.inj has
        rw [numbers_append, hone] at hsame
        omega
  · cases as with
    | nil => cases has; rfl
    | cons a as =>
        obtain ⟨rfl, _⟩ := List.cons.inj has
        rw [numbers_append, hone] at hsame
        omega

end Gateway

end AgentVeil
