import AgentVeil.Gateway.Router

/-!
# What a built gateway lets out

Whatever the order of the turns: where its requests are sent and with which headers, that nothing is
restored for the real upstream, and that no row is refused for its metadata.
-/

namespace AgentVeil

open Rust

variable {ι R : Type} [RandomSource R] {crates : Crates} {config : GatewayConfig}
  {state : GatewayState} {shared : Shared R} {requests : ι → Request}

/-! ## Metadata -/

/-- What `to_hex` gives: 64 hexadecimal digits. -/
structure HexHash (blake3 : List UInt8 → Str) : Prop where
  length b : (blake3 b).length = 64
  digits b : ∀ c ∈ blake3 b, isAsciiHexdigit c = true

theorem isAscii_of_alphanumeric {c : Char} (h : isAsciiAlphanumeric c = true) : isAscii c = true := by
  simp only [isAsciiAlphanumeric, isAsciiDigit, isAsciiUppercase, isAsciiLowercase, Bool.or_eq_true,
    Bool.and_eq_true, decide_eq_true_eq] at h
  simp only [isAscii, decide_eq_true_eq]
  omega

theorem alphanumeric_of_hexdigit {c : Char} (h : isAsciiHexdigit c = true) :
    isAsciiAlphanumeric c = true := by
  simp only [isAsciiHexdigit, Bool.or_eq_true, Bool.and_eq_true, decide_eq_true_eq, Char.le_def,
    UInt32.le_iff_toNat_le] at h
  have ha : 'a'.val.toNat = 97 := rfl
  have hf : 'f'.val.toNat = 102 := rfl
  have hA : 'A'.val.toNat = 65 := rfl
  have hF : 'F'.val.toNat = 70 := rfl
  have hval : c.val.toNat = c.toNat := rfl
  simp only [isAsciiAlphanumeric, isAsciiUppercase, isAsciiLowercase, Bool.or_eq_true,
    Bool.and_eq_true, decide_eq_true_eq]
  rcases h with (h | h) | h
  · exact .inl (.inl h)
  · exact .inr ⟨by omega, by omega⟩
  · exact .inl (.inr ⟨by omega, by omega⟩)

/-- A character of an identifier. -/
def isIdentifierChar (c : Char) : Bool := isAsciiAlphanumeric c || c = '-' || c = '_'

theorem isAscii_of_identifierChar {c : Char} (h : isIdentifierChar c = true) : isAscii c = true := by
  simp only [isIdentifierChar, Bool.or_eq_true, decide_eq_true_eq] at h
  rcases h with (h | rfl) | rfl
  · exact isAscii_of_alphanumeric h
  · decide
  · decide

theorem safeIdentifier_iff {value : Str} {minimum maximum : Nat} :
    safeIdentifier value minimum maximum = true ↔
      minimum ≤ value.length ∧ value.length ≤ maximum ∧ ∀ c ∈ value, isIdentifierChar c = true := by
  simp only [safeIdentifier, Bool.and_eq_true, decide_eq_true_eq, List.all_eq_true]
  constructor
  · rintro ⟨⟨hmin, hmax⟩, hchars⟩
    have hascii : len value = value.length :=
      len_of_isAscii fun c hc => isAscii_of_identifierChar (hchars c hc)
    exact ⟨hascii ▸ hmin, hascii ▸ hmax, hchars⟩
  · rintro ⟨hmin, hmax, hchars⟩
    have hascii : len value = value.length :=
      len_of_isAscii fun c hc => isAscii_of_identifierChar (hchars c hc)
    exact ⟨⟨hascii ▸ hmin, hascii ▸ hmax⟩, hchars⟩

theorem safeIdentifier_append {pre rest : Str} {n : Nat} (hpre : pre.all isIdentifierChar = true)
    (hrest : ∀ c ∈ rest, isIdentifierChar c = true) (hlen : rest.length = n)
    (hmin : 8 ≤ pre.length + n) (hmax : pre.length + n ≤ 72) :
    safeIdentifier (pre ++ rest) 8 72 = true := by
  rw [safeIdentifier_iff, List.length_append, hlen]
  refine ⟨hmin, hmax, fun c hc => ?_⟩
  rcases List.mem_append.mp hc with hc | hc
  · exact List.all_eq_true.mp hpre c hc
  · exact hrest c hc

/-- An identifier that is drawn is one that the audit accepts. -/
theorem safeIdentifier_random {random : Option (Fin 12 → UInt8)} {eventId : Str}
    (h : randomIdentifier "av_evt_" random = some eventId) : safeIdentifier eventId 8 72 = true := by
  obtain ⟨drawn, _, rfl⟩ := Option.map_eq_some_iff.mp h
  have hdigit : ∀ n < 16, isIdentifierChar (toAsciiLowercase (hexDigit n)) = true := by decide
  apply safeIdentifier_append (n := 24) (by decide)
  · intro c hc
    obtain ⟨b, _, hb⟩ := List.mem_flatMap.mp hc
    simp only [hexByteLower, hexByte, List.map_cons, List.map_nil, List.mem_cons, List.not_mem_nil,
      or_false] at hb
    have hbyte := b.toNat_lt
    rcases hb with rfl | rfl
    · apply hdigit
      omega
    · apply hdigit
      omega
  · simp [hexByteLower, hexByte]
  · decide
  · decide

theorem safeIdentifier_pseudonym {blake3 : List UInt8 → Str} (hash : HexHash blake3)
    (scope : SessionScope) : safeIdentifier (pseudonym blake3 scope) 8 72 = true := by
  apply safeIdentifier_append (n := 16) (by decide)
  · intro c hc
    have hdigit := hash.digits (bytes scope.value) c (List.mem_of_mem_take hc)
    rw [isIdentifierChar, alphanumeric_of_hexdigit hdigit]
    rfl
  · rw [List.length_take, hash.length]
    rfl
  · decide
  · decide

theorem safeIdentifier_slug {name : Str} (h : isSafeSlug name = true) :
    safeIdentifier name 1 48 = true := by
  simp only [isSafeSlug, Bool.and_eq_true, decide_eq_true_eq, List.all_eq_true] at h
  obtain ⟨⟨hne, hmax⟩, hchars⟩ := h
  have hchars : ∀ c ∈ name, isIdentifierChar c = true := by
    intro c hc
    have := hchars c hc
    simp only [Bool.or_eq_true, decide_eq_true_eq] at this
    rcases this with ((h | h) | h) | h
    · simp [isIdentifierChar, isAsciiAlphanumeric, h]
    · simp [isIdentifierChar, isAsciiAlphanumeric, h]
    · simp [isIdentifierChar, h]
    · simp [isIdentifierChar, h]
  have hascii : len name = name.length :=
    len_of_isAscii fun c hc => isAscii_of_identifierChar (hchars c hc)
  exact safeIdentifier_iff.mpr ⟨List.length_pos_iff.mpr (by simpa using hne), hascii ▸ hmax, hchars⟩

theorem safeHex_hash {blake3 : List UInt8 → Str} (hash : HexHash blake3) (b : List UInt8) :
    safeHex (blake3 b) 64 = true := by
  have hlen : len (blake3 b) = 64 := by
    rw [len_of_isAscii, hash.length]
    exact fun c hc => isAscii_of_alphanumeric (alphanumeric_of_hexdigit (hash.digits b c hc))
  simp only [safeHex, hlen, decide_true, Bool.true_and]
  exact List.all_eq_true.mpr (hash.digits b)

omit [RandomSource R] in
/-- The audit accepts every row of a built gateway, whatever the call, once its identifier is one. -/
theorem exists_auditEvent (built : Built crates config state shared) (hash : HexHash crates.blake3)
    {call : AuditCall} (named : safeIdentifier call.eventId 8 72 = true) (unixMs : Nat) :
    ∃ event, state.auditEvent call unixMs = .ok event := by
  have hname := (validate_ok_iff.mp config.policy.valid).2.1
  have hversion : safeVersion version = true := by decide
  unfold GatewayState.auditEvent AuditEvent.new
  rw [built.pseudonym, built.policyName, built.policyHash, named, safeIdentifier_pseudonym hash,
    safeIdentifier_slug hname, ValidatedPolicy.hash, safeHex_hash hash, hversion]
  exact ⟨_, rfl⟩

/-! ## Rows -/

/-- The handler holds an identifier that the audit accepts. -/
def Handler.Named : Handler → Prop
  | .numbered eventId _ => safeIdentifier eventId 8 72 = true
  | .auditing call _ | .degraded call _ | .recording call _ _ | .sending call _ | .waiting call =>
      safeIdentifier call.eventId 8 72 = true
  | _ => True

theorem Named.afterAudit {call : AuditCall} (named : safeIdentifier call.eventId 8 72 = true)
    (next : Next) (written : Bool) : (afterAudit call next written).Named := by
  cases next with
  | respond | relay => trivial
  | send =>
      cases written with
      | true => exact named
      | false => trivial

theorem eventId_judge (headers : HeaderMap) (eventId : Str) (n : UInt64) (scanLatencyMs : Nat)
    (outcome : Except EngineError ProtectionOutcome) :
    (state.judge headers eventId n scanLatencyMs outcome).1.eventId = eventId := by
  cases outcome with
  | error => rfl
  | ok outcome =>
      cases outcome with
      | blocked => rfl
      | forward =>
          unfold GatewayState.judge
          cases upstreamUrl state.urls state.upstream headers .responses none with
          | error => rfl
          | ok => rfl

theorem named_turn {request : Request} {choice : Choice} {handler handler' : Handler}
    {shared shared' : Shared R} {o : Observation} (named : handler.Named)
    (move : state.responses request choice handler shared = some (o, handler', shared')) :
    handler'.Named := by
  unfold GatewayState.responses at move
  split at move
  · split at move
    · cases move; trivial
    · cases move; trivial
  · split at move
    · cases move; trivial
    · cases move; exact safeIdentifier_random ‹_›
  · have hjudge := @eventId_judge state request.headers
    split at move
    · cases move; trivial
    · cases move; exact named
    · cases move
      apply Eq.mpr (congrArg (fun eventId => safeIdentifier eventId 8 72 = true) (hjudge _ _ _ _))
      exact named
  · split at move
    · cases move; exact named
    · split at move
      · cases move; exact named
      · cases move; exact named
  · cases move; exact Named.afterAudit named _ _
  · cases move; exact Named.afterAudit named _ _
  · cases move; exact named
  · cases move
    rename_i reached
    cases reached with
    | true => exact named
    | false => exact named
  · split at move
    · cases move
    · cases move; trivial
  · cases move; trivial
  · cases move; trivial
  · cases move; trivial
  · cases move; trivial
  · cases move

/-- The turn in which a row is lost: the event of its call is refused, or the sink fails. -/
theorem unaudited_turn {request : Request} {choice : Choice} {handler handler' : Handler}
    {shared shared' : Shared R} {call : AuditCall} {appended : List UInt8}
    (move : state.responses request choice handler shared
      = some (.unaudited call appended, handler', shared')) :
    ∃ next unixMs fate, handler = .auditing call next ∧
      ((∃ e, state.auditEvent call unixMs = .error e) ∨
        ∃ event e, state.auditEvent call unixMs = .ok event ∧
          AuditSink.write state.toVec event fate = (.error e, appended)) := by
  unfold GatewayState.responses at move
  split at move
  case h_4 call' next unixMs fate =>
    split at move
    · rename_i e hevent
      cases move
      exact ⟨next, unixMs, fate, rfl, .inl ⟨e, hevent⟩⟩
    · rename_i event hevent
      split at move
      · rename_i e appended' hwrite
        cases move
        exact ⟨next, unixMs, fate, rfl, .inr ⟨event, e, hevent, hwrite⟩⟩
      · cases move
  all_goals first | cases move | (split at move <;> cases move)

variable [DecidableEq ι] {meets : Gateway ι R → ι → Choice → Prop} {gateway : Gateway ι R}

theorem Built.run (built : Built crates config state shared)
    (h : Tasks.Run (state.turns requests) meets (Tasks.start shared .arrived) gateway) :
    ∃ engine file, Tasks.Run (state.turns requests) meets (Gateway.new engine file) gateway := by
  obtain ⟨engine, file, rfl, _⟩ := built.start
  exact ⟨engine, file, h⟩

/-- The health flag is cleared only after a row is lost. -/
theorem unaudited_of_unhealthy {engine : PrivacyEngine R} {file : List UInt8}
    (h : Tasks.Run (state.turns requests) meets (Gateway.new engine file) gateway)
    (hflag : gateway.shared.auditHealthy = false) :
    ∃ i call appended, (i, .unaudited call appended) ∈ gateway.log := by
  have hdegraded : ∃ i, (i, .degraded) ∈ gateway.log := by
    refine h.shared_invariant (I := fun shared log => shared.auditHealthy = false →
      ∃ i, (i, .degraded) ∈ log) ?_ ?_ hflag
    · rintro ⟨⟩
    intro i choice handler shared log o handler' shared' hinv move hflag
    have kept : shared.auditHealthy = false → ∃ j, (j, .degraded) ∈ log ++ [(i, o)] := by
      intro hflag
      obtain ⟨j, hj⟩ := hinv hflag
      exact ⟨j, List.mem_append_left _ hj⟩
    cases touches move with
    | degraded => exact ⟨i, by simp⟩
    | _ => exact kept hflag
  obtain ⟨i, hmem⟩ := hdegraded
  obtain ⟨pre, post, hlog⟩ := List.append_of_mem hmem
  obtain ⟨earlier, _, _, _, hrun, _, hpre, move⟩ := h.moment rfl hlog
  obtain ⟨_, _, call, next, hhandler⟩ := degraded_turn move
  have hcourse := course hrun i
  rw [hhandler] at hcourse
  generalize hos : events i earlier.log = os at hcourse
  cases hcourse with
  | @degraded os _ _ appended asks =>
      have hlost : .unaudited call appended ∈ events i earlier.log := by
        rw [hos]
        simp
      rw [mem_events, hpre] at hlost
      exact ⟨i, call, appended, by rw [hlog]; exact List.mem_append_left _ hlost⟩

/-- No row of a built gateway is lost for its metadata: each that is lost was an event which the sink
failed to write, and the gateway turns unhealthy only after such a loss. -/
theorem unaudited_write (built : Built crates config state shared) (hash : HexHash crates.blake3)
    (h : Tasks.Run (state.turns requests) meets (Tasks.start shared .arrived) gateway) :
    (∀ i call appended, (i, .unaudited call appended) ∈ gateway.log →
      ∃ event unixMs fate e, state.auditEvent call unixMs = .ok event ∧
        AuditSink.write state.toVec event fate = (.error e, appended)) ∧
    (gateway.shared.auditHealthy = false →
      ∃ i call appended, (i, .unaudited call appended) ∈ gateway.log) := by
  obtain ⟨engine, file, h⟩ := built.run h
  refine ⟨?_, unaudited_of_unhealthy h⟩
  intro i call appended hmem
  obtain ⟨pre, post, hlog⟩ := List.append_of_mem hmem
  obtain ⟨earlier, _, _, _, hrun, _, _, move⟩ := h.moment rfl hlog
  have hnamed : (earlier.locals i).Named := by
    apply hrun.local_invariant (P := fun _ handler _ => handler.Named)
    · intro _
      trivial
    · intro _ _ _ _ _ _ _ _ named move
      exact named_turn named move
  obtain ⟨next, unixMs, fate, hhandler, hcase⟩ := unaudited_turn move
  rw [hhandler] at hnamed
  rcases hcase with ⟨e, hrefused⟩ | ⟨event, e, hevent, hwrite⟩
  · obtain ⟨event, hevent⟩ := exists_auditEvent built hash hnamed unixMs
    rw [hevent] at hrefused
    cases hrefused
  · exact ⟨event, unixMs, fate, e, hevent, hwrite⟩

/-! ## Egress -/

/-- A send is that of a forwarded request. -/
theorem Outline.forwards {request : Request} {os : List Observation} {upstream : UpstreamRequest}
    (h : Outline state request os) (hmem : .sent upstream ∈ os) :
    ∃ call forward, Forwards state request call upstream forward := by
  cases h with
  | quiet unsent _ => exact absurd hmem (unsent upstream)
  | @sends n forward upstream' call event _ rest forwards _ shape unsent _ _ =>
      rw [shape] at hmem
      rcases List.mem_append.mp hmem with hmem | hmem
      · exact absurd hmem (((opening_unsent _ _).append (by simp [Unsent])) upstream)
      · rcases List.mem_cons.mp hmem with hsent | hmem
        · cases hsent
          exact ⟨call, forward, forwards⟩
        · exact absurd hmem (unsent upstream)

theorem getAll_filter {headers : HeaderMap} {name : String} {p : Str × List UInt8 → Bool}
    (h : ∀ e ∈ headers, e.1 = name.toList → p e = true) :
    HeaderMap.getAll (headers.filter p) name = headers.getAll name := by
  unfold HeaderMap.getAll
  rw [List.filterMap_filter]
  apply List.filterMap_congr
  intro e he
  by_cases hname : e.1 = name.toList
  · rw [h e he hname]
    simp
  · simp [hname]

/-- Nothing is restored in a gateway that restores nothing. -/
theorem restored_turn {request : Request} {choice : Choice} {handler handler' : Handler}
    {shared shared' : Shared R} (hmode : state.restorationMode = .disabled) :
    state.responses request choice handler shared ≠ some (.restored, handler', shared') := by
  intro move
  unfold GatewayState.responses at move
  split at move
  case h_9 =>
    rw [if_pos hmode] at move
    cases move
  all_goals first | cases move | (split at move <;> first | cases move | (split at move <;> cases move))

/-- What is sent to the real upstream. -/
structure SentLive (urls : UrlParser) (headers : HeaderMap) (upstream : UpstreamRequest) : Prop where
  target : urls.parse chatgptResponsesUrl = some upstream.target ∨
    urls.parse apiResponsesUrl = some upstream.target
  headers : upstream.headers.Sublist headers
  names : ∀ h ∈ upstream.headers, h.1 ∈ forwardedHeaders ∧ h.1 ≠ localSessionHeader.toList
  authorization : ∃ value, upstream.headers.getAll "authorization" = [value]

/-- What is sent to a test upstream. -/
structure SentLoopback (crates : Crates) (base : Url) (upstream : UpstreamRequest) : Prop where
  target : crates.urls.join base "/v1/responses".toList = some upstream.target
  scheme : crates.parts.scheme base = "http".toList
  loopback : ∃ host address, crates.parts.hostStr base = some host ∧
    crates.parts.parseIpAddr host = some address ∧ address.isLoopback = true
  headers : upstream.headers = [("content-type".toList, bytes "application/json".toList),
    ("x-agentveil-synthetic".toList, bytes "true".toList)]

theorem validateLoopbackTestUrl_ok {parts : UrlParts} {url : Url}
    (h : validateLoopbackTestUrl parts url = .ok ()) :
    parts.scheme url = "http".toList ∧ ∃ host address, parts.hostStr url = some host ∧
      parts.parseIpAddr host = some address ∧ address.isLoopback = true := by
  unfold validateLoopbackTestUrl at h
  obtain ⟨hparts, h⟩ := check_bind_ok_iff.mp h
  obtain ⟨host, hhost, h⟩ := bind_ok_iff.mp h
  obtain ⟨address, haddress, h⟩ := bind_ok_iff.mp h
  exact ⟨(ensure_ok_iff.mp hparts).1, host, address, okOr_ok_iff.mp hhost, okOr_ok_iff.mp haddress,
    ensure_ok_iff.mp h⟩

theorem Forwards.live {request : Request} {call : AuditCall} {upstream : UpstreamRequest}
    {forward : ForwardRequest} (forwards : Forwards state request call upstream forward)
    (hopenai : state.upstream = .openAi) : SentLive state.urls request.headers upstream := by
  have hheaders := forwards.headers
  have htarget := forwards.target
  have hsingle := (precheck_ok_iff.mp forwards.admissible).2.2.2.2 (by rw [hopenai]; rfl)
  rw [hopenai] at hheaders htarget
  simp only [forwardRequestHeaders, UpstreamKind.isOpenai, Bool.not_true, Bool.false_eq_true,
    if_false, Bool.true_or, Bool.and_true] at hheaders
  have hname : localSessionHeader.toList ∉ forwardedHeaders := by decide
  constructor
  · unfold upstreamUrl at htarget
    obtain ⟨url, hurl, htarget⟩ := bind_ok_iff.mp htarget
    cases htarget
    have hparse := okOr_ok_iff.mp hurl
    cases haccount : (request.headers.get "chatgpt-account-id").isSome with
    | true =>
        rw [haccount] at hparse
        exact .inl hparse
    | false =>
        rw [haccount] at hparse
        exact .inr hparse
  · rw [hheaders]
    exact List.filter_sublist
  · intro h hh
    rw [hheaders, List.mem_filter] at hh
    have hmem := of_decide_eq_true hh.2
    exact ⟨hmem, fun heq => hname (heq ▸ hmem)⟩
  · rw [hheaders, getAll_filter]
    · unfold hasSingleAuthorization at hsingle
      split at hsingle
      · exact ⟨_, ‹_›⟩
      · cases hsingle
    · intro e _ he
      rw [he]
      decide

omit [RandomSource R] in
theorem Forwards.loopback {request : Request} {call : AuditCall} {upstream : UpstreamRequest}
    {forward : ForwardRequest} (forwards : Forwards state request call upstream forward)
    {base : Url} (built : Built crates config state shared)
    (hbase : config.upstream = .loopbackTest base) : SentLoopback crates base upstream := by
  have hheaders := forwards.headers
  have htarget := forwards.target
  obtain ⟨hupstream, hvalid⟩ := built.upstream
  rw [hupstream, hbase] at hheaders htarget
  rw [hbase] at hvalid
  obtain ⟨hscheme, hloopback⟩ := validateLoopbackTestUrl_ok hvalid
  refine ⟨?_, hscheme, hloopback, hheaders⟩
  rw [built.urls] at htarget
  unfold upstreamUrl at htarget
  obtain ⟨url, hurl, htarget⟩ := bind_ok_iff.mp htarget
  cases htarget
  exact okOr_ok_iff.mp hurl

/-- Where a built gateway sends, whatever the order of the turns: only for requests with its token, and
to the real upstream only at its two fixed addresses with the headers of the list and one
authorization, where nothing is ever restored; or to the loopback address of the configuration with
two fixed headers. -/
theorem sent_confined (built : Built crates config state shared)
    (h : Tasks.Run (state.turns requests) meets (Tasks.start shared .arrived) gateway) :
    (∀ i upstream, (i, .sent upstream) ∈ gateway.log →
      state.authorized (requests i).headers = true ∧
        (config.upstream = .openAi ∧ SentLive crates.urls (requests i).headers upstream ∨
          ∃ base, config.upstream = .loopbackTest base ∧ SentLoopback crates base upstream)) ∧
    (config.upstream = .openAi → ∀ i, (i, .restored) ∉ gateway.log) := by
  obtain ⟨engine, file, h⟩ := built.run h
  constructor
  · intro i upstream hmem
    obtain ⟨call, forward, hforwards⟩ := (course h i).outline.forwards (mem_events.mpr hmem)
    refine ⟨(precheck_ok_iff.mp hforwards.admissible).1, ?_⟩
    cases hkind : config.upstream with
    | openAi =>
        have hlive := hforwards.live (built.upstream.1.trans hkind)
        rw [built.urls] at hlive
        exact .inl ⟨rfl, hlive⟩
    | loopbackTest base => exact .inr ⟨base, rfl, hforwards.loopback built hkind⟩
  · intro hkind i hmem
    obtain ⟨pre, post, hlog⟩ := List.append_of_mem hmem
    obtain ⟨earlier, _, _, _, _, _, _, move⟩ := h.moment rfl hlog
    have hmode := built.restoration (by rw [built.upstream.1, hkind]; rfl)
    exact restored_turn hmode move

/-! ## A demonstration -/

/-- A rule of a demonstration policy, as it is written. -/
def demoRuleJson (key : String) : Str :=
  "\"".toList ++ key.toList ++
    if key = "pii.email" then
      "\":\x7b\"action\":\"tokenize\",\"restorable\":true,\"ttl_seconds\":300\x7d".toList
    else "\":\x7b\"action\":\"block\",\"restorable\":false,\"ttl_seconds\":null\x7d".toList

/-- The canonical JSON of the demonstration policy under a name. -/
def demoPolicyJson (name : Str) : Str :=
  "\x7b\"version\":1,\"name\":\"".toList ++ name ++
    "\",\"description\":\"\",\"defaults\":\x7b\"unknown_sensitive\":\"block\",".toList ++
    "\"raw_logging\":false,\"restoration\":\"deny\",\"max_request_bytes\":1048576,".toList ++
    "\"ledger_max_entries\":1\x7d,\"categories\":\x7b".toList ++
    List.intercalate ",".toList (["agentveil.token_namespace", "credentials", "custom.term",
      "filesystem.home_path", "infrastructure.hostname", "infrastructure.private_ip",
      "network.database_url", "pii.email", "pii.phone", "private_keys",
      "security.jwt"].map demoRuleJson) ++
    "\x7d,\"detectors\":\x7b\"internal_hostname_suffixes\":[],\"custom_terms\":[],".toList ++
    "\"home_prefixes\":[]\x7d\x7d".toList

/-- The hashes of the scope and of the policies of the demonstrations. -/
def demoHashes : List (List UInt8 × Str) :=
  [(bytes demoScope.value, "a9434ed22cdb8a5e5ecb0c909d70db0f1bcd83ecfc7c8aac91fe791d800bc8a5".toList),
    (bytes (demoPolicyJson "demo".toList),
      "a99c5b9eeb31a295fb454913a1713b5f68500d325d4f9180e8b9fbb7fa6e5db1".toList),
    (bytes (demoPolicyJson "default".toList),
      "f9f16e665ad0ff474266c9e75f2753ed435c510ff99e61dd2e4e8e01bc500424".toList)]

/-- Crates that know the parts of one loopback address and these hashes. -/
def demoCrates : Crates where
  unicode := Unicode.ascii
  serde := PrivacyEngine.mailSerde
  toVec := demoGateway.toVec
  urls := demoGateway.urls
  parts := ⟨fun _ => "http".toList, fun _ => [], fun _ => none, fun _ => none, fun _ => none,
    fun _ => some "127.0.0.1".toList, fun _ => some (.v4 127 0 0 1)⟩
  blake3 b := ((demoHashes.find? (·.1 = b)).map Prod.snd).getD (List.replicate 64 '0')
  policyToVec policy := bytes (demoPolicyJson policy.inner.name)
  hashMap := HashMap.empty

/-- The hash in the first entry of the table for a byte string. -/
theorem blake3_of_entry {b : List UInt8} {hash : Str} (pre post : List (List UInt8 × Str))
    (htable : demoHashes = pre ++ (b, hash) :: post) (hfirst : ∀ e ∈ pre, e.1 ≠ b) :
    demoCrates.blake3 b = hash := by
  have hnone : pre.find? (·.1 = b) = none :=
    List.find?_eq_none.mpr fun e he => by simpa using hfirst e he
  have hfind : demoHashes.find? (·.1 = b) = some (b, hash) := by
    simp [htable, List.find?_append, hnone]
  exact congrArg (fun found => (found.map Prod.snd).getD (List.replicate 64 '0')) hfind

def demoConfig : GatewayConfig where
  bind := .v4 127 0 0 1
  policy := PrivacyEngine.demoPolicy
  scope := demoScope
  localSessionToken := List.replicate 32 'k'
  upstream := .loopbackTest "http://127.0.0.1:9000".toList
  restorationMode := .disabled

theorem buildRouter_demo : buildRouter demoCrates demoConfig ⟨true, some [], ⟨0⟩⟩
    = .ok (demoGateway, demoStart.shared) := by
  have hvalid : demoConfig.validate demoCrates.parts = .ok () :=
    validate_config_iff.mpr ⟨rfl, by decide, rfl, by rintro ⟨⟩⟩
  have hengine : PrivacyEngine.new demoCrates.hashMap demoConfig.policy ⟨0⟩
    = .ok PrivacyEngine.demoEngine := rfl
  have hpseudonym : pseudonym demoCrates.blake3 demoConfig.scope = demoGateway.sessionPseudonym := by
    decide +kernel
  have hhash : demoConfig.policy.hash demoCrates = demoGateway.policyHash := by
    have hjson : demoCrates.policyToVec demoConfig.policy = bytes (demoPolicyJson "demo".toList) := rfl
    rw [ValidatedPolicy.hash, hjson, demoGateway]
    exact blake3_of_entry [_] [_] rfl (by decide +kernel)
  unfold buildRouter
  rw [hvalid, hengine, hpseudonym, hhash]
  rfl

theorem hexHash_demo : HexHash demoCrates.blake3 := by
  have hall : ∀ b, (demoCrates.blake3 b).length = 64 ∧
      (demoCrates.blake3 b).all isAsciiHexdigit = true := by
    intro b
    have hhashes : ∀ e ∈ demoHashes, e.2.length = 64 ∧ e.2.all isAsciiHexdigit = true := by decide +kernel
    have hblake : demoCrates.blake3 b
        = ((demoHashes.find? (·.1 = b)).map Prod.snd).getD (List.replicate 64 '0') := rfl
    rw [hblake]
    cases hfind : demoHashes.find? (·.1 = b) with
    | none => exact ⟨rfl, by decide⟩
    | some e => exact hhashes e (List.mem_of_find?_eq_some hfind)
  exact ⟨fun b => (hall b).1, fun b => List.all_eq_true.mp (hall b).2⟩

theorem unaudited_write_demo : ∃ (gateway : Gateway Nat CounterRandom) (i : Nat) (call : AuditCall)
    (appended : List UInt8), (i, .unaudited call appended) ∈ gateway.log ∧
      ∃ event unixMs fate e, demoGateway.auditEvent call unixMs = .ok event ∧
        AuditSink.write demoGateway.toVec event fate = (.error e, appended) := by
  have hexec : (Tasks.exec (demoGateway.turns demoRequests) demoStart
      [(0, .go), (0, .identify (some fun _ => 0)), (0, .protect 0 0), (0, .write 0 .sync),
        (0, .go)]).any (fun gateway => !gateway.shared.auditHealthy) = true := by
    decide +kernel
  obtain ⟨gateway, hexec, hflag⟩ := (Option.any_eq_true _ _).mp hexec
  have hreach : Tasks.Reachable (demoGateway.turns demoRequests) demoStart gateway :=
    Tasks.run_of_exec .start (fun _ _ _ => trivial) hexec
  obtain ⟨hrows, hlost⟩ := unaudited_write (built_of_buildRouter buildRouter_demo) hexHash_demo hreach
  obtain ⟨i, call, appended, hmem⟩ := hlost (by simpa using hflag)
  exact ⟨gateway, i, call, appended, hmem, hrows i call appended hmem⟩

/-- The same for the real upstream, under a policy with another name. -/
def livePolicy : ValidatedPolicy :=
  ⟨{ PrivacyEngine.demoPolicy.inner with name := "default".toList }, by decide⟩

def liveConfig : GatewayConfig := { demoConfig with policy := livePolicy, upstream := .openAi }

def liveGateway : GatewayState :=
  { demoGateway with
    upstream := .openAi
    policyName := "default".toList
    policyHash := "f9f16e665ad0ff474266c9e75f2753ed435c510ff99e61dd2e4e8e01bc500424".toList }

def liveStart : Gateway Nat CounterRandom := .new ⟨livePolicy, demoLedger⟩ []

def liveRequests (_ : Nat) : Request :=
  ⟨("authorization".toList, bytes "Bearer key".toList) :: demoHeaders, demoBody "a@b.co".toList⟩

theorem buildRouter_live : buildRouter demoCrates liveConfig ⟨true, some [], ⟨0⟩⟩
    = .ok (liveGateway, liveStart.shared) := by
  have hvalid : liveConfig.validate demoCrates.parts = .ok () :=
    validate_config_iff.mpr ⟨rfl, by decide, rfl, fun _ => ⟨rfl, by decide⟩⟩
  have hengine : PrivacyEngine.new demoCrates.hashMap liveConfig.policy ⟨0⟩
    = .ok (⟨livePolicy, demoLedger⟩ : PrivacyEngine CounterRandom) := rfl
  have hpseudonym : pseudonym demoCrates.blake3 liveConfig.scope = liveGateway.sessionPseudonym := by
    decide +kernel
  have hhash : liveConfig.policy.hash demoCrates = liveGateway.policyHash := by
    have hjson : demoCrates.policyToVec liveConfig.policy = bytes (demoPolicyJson "default".toList) := rfl
    rw [ValidatedPolicy.hash, hjson, liveGateway]
    exact blake3_of_entry [_, _] [] rfl (by decide +kernel)
  unfold buildRouter
  rw [hvalid, hengine, hpseudonym, hhash]
  rfl

theorem exists_sent_of_any {log : List (Nat × Observation)} (h : log.any (·.2.isSent) = true) :
    ∃ i upstream, (i, .sent upstream) ∈ log := by
  obtain ⟨⟨i, o⟩, hmem, hsent⟩ := List.any_eq_true.mp h
  cases o with
  | sent upstream => exact ⟨i, upstream, hmem⟩
  | _ => cases hsent

theorem sent_confined_demo :
    (∃ (gateway : Gateway Nat CounterRandom) (i : Nat) (upstream : UpstreamRequest),
      (i, .sent upstream) ∈ gateway.log ∧
        SentLoopback demoCrates "http://127.0.0.1:9000".toList upstream) ∧
    ∃ (gateway : Gateway Nat CounterRandom) (i : Nat) (upstream : UpstreamRequest),
      (i, .sent upstream) ∈ gateway.log ∧
        SentLive demoCrates.urls (liveRequests i).headers upstream ∧
        ∀ j, (j, .restored) ∉ gateway.log := by
  constructor
  · obtain ⟨gateway, hreach, hsent⟩ := exists_sent
    obtain ⟨i, upstream, hmem⟩ := exists_sent_of_any hsent
    obtain ⟨hsends, _⟩ := sent_confined (built_of_buildRouter buildRouter_demo) hreach
    rcases (hsends i upstream hmem).2 with ⟨hkind, _⟩ | ⟨base, hkind, hloopback⟩
    · cases hkind
    · cases hkind
      exact ⟨gateway, i, upstream, hmem, hloopback⟩
  · have hexec : (Tasks.exec (liveGateway.turns liveRequests) liveStart demoSchedule).any
        (fun gateway => gateway.log.any (·.2.isSent)) = true := by
      decide +kernel
    obtain ⟨gateway, hexec, hsent⟩ := (Option.any_eq_true _ _).mp hexec
    obtain ⟨i, upstream, hmem⟩ := exists_sent_of_any hsent
    have hreach : Tasks.Reachable (liveGateway.turns liveRequests) liveStart gateway :=
      Tasks.run_of_exec .start (fun _ _ _ => trivial) hexec
    obtain ⟨hsends, hrestored⟩ := sent_confined (built_of_buildRouter buildRouter_live) hreach
    rcases (hsends i upstream hmem).2 with ⟨_, hlive⟩ | ⟨base, hkind, _⟩
    · exact ⟨gateway, i, upstream, hmem, hlive, hrestored rfl⟩
    · cases hkind

end AgentVeil
