import AgentVeil.Gateway.Confinement
import AgentVeil.Gateway.Relay

/-!
# Model discovery

The route `/v1/models`. It is the one route that goes upstream without a look at the policy, so nothing
of the client may go with it but the headers of the list and a short version.
-/

namespace AgentVeil

open Rust

/-! ## The route -/

def isVersionCharacter (c : Char) : Bool := isAsciiAlphanumeric c || c = '.' || c = '-' || c = '_'

def validatedModelsQuery : Option Str → Except Unit (Option Str)
  | none => .ok none
  | some query => do
      let value ← okOr (stripPrefix "client_version=".toList query) ()
      ensure (value ≠ [] ∧ len value ≤ 32 ∧ value.all isVersionCharacter = true) ()
      .ok (some query)

/-- The headers of a response that the client gets. -/
def isResponseHeader (name : Str) : Bool :=
  name ∈ ["cache-control", "content-type", "retry-after", "x-request-id", "request-id"].map String.toList
    || "x-ratelimit-".toList.isPrefixOf name || "openai-".toList.isPrefixOf name

def responseHeaders (source : HeaderMap) : HeaderMap := source.filter fun h => isResponseHeader h.1

structure UpstreamResponse where
  status : Nat
  headers : HeaderMap
  arrivals : List Arrival

/-- A response with a stream for its body. -/
structure RelayedResponse where
  status : Nat
  headers : HeaderMap
  chunks : List (List UInt8)
  error : Option StreamError

/-- `relay_upstream` without a state: nothing is restored. -/
def relayModels (upstream : UpstreamResponse) : RelayedResponse :=
  let (chunks, error) := relayPlain upstream.arrivals
  ⟨upstream.status, responseHeaders upstream.headers, chunks, error⟩

/-- What `models` sends, if anything, and its response; `send` is the upstream, if it is reached. -/
def GatewayState.models (state : GatewayState) (send : UpstreamRequest → Option UpstreamResponse)
    (headers : HeaderMap) (query : Option Str) :
    Option UpstreamRequest × Except ErrorResponse RelayedResponse :=
  if state.authorized headers = false then
    (none, .error ⟨401, "agentveil_unauthorized", "AgentVeil rejected the local client.", none, none⟩)
  else if state.upstream.isOpenai = true ∧ hasSingleAuthorization headers = false then
    (none, .error ⟨401, "agentveil_upstream_auth_missing",
      "AgentVeil did not receive one valid Codex authorization header.", none, none⟩)
  else
    match validatedModelsQuery query with
    | .error () =>
        (none, .error ⟨400, "agentveil_invalid_models_query",
          "AgentVeil rejected an unsupported model-discovery query.", none, none⟩)
    | .ok query =>
        match upstreamUrl state.urls state.upstream headers .models query with
        | .error _ =>
            (none, .error ⟨502, "agentveil_upstream_configuration",
              "AgentVeil could not select the fixed upstream.", none, none⟩)
        | .ok target =>
            let request := ⟨target, forwardRequestHeaders headers state.upstream false, []⟩
            match send request with
            | some upstream => (some request, .ok (relayModels upstream))
            | none =>
                (some request, .error ⟨502, "agentveil_upstream_unavailable",
                  "AgentVeil could not reach model discovery.", none, none⟩)

/-! ## Queries -/

/-- No query, or a version of at most 32 letters, digits, dots, hyphens and underscores. -/
def VersionQuery (query : Option Str) : Prop :=
  query = none ∨ ∃ value, query = some ("client_version=".toList ++ value) ∧ value ≠ [] ∧
    value.length ≤ 32 ∧ value.all isVersionCharacter = true

theorem validatedModelsQuery_ok {query query' : Option Str}
    (h : validatedModelsQuery query = .ok query') : query' = query ∧ VersionQuery query := by
  cases query with
  | none =>
      cases h
      exact ⟨rfl, .inl rfl⟩
  | some query =>
      obtain ⟨value, hvalue, h⟩ := bind_ok_iff.mp h
      obtain ⟨hsafe, h⟩ := check_bind_ok_iff.mp h
      cases h
      have hvalue := okOr_ok_iff.mp hvalue
      unfold stripPrefix at hvalue
      split at hvalue
      · rename_i hpre
        obtain ⟨rest, rfl⟩ := List.isPrefixOf_iff_prefix.mp hpre
        rw [List.drop_left] at hvalue
        obtain rfl := Option.some.inj hvalue
        obtain ⟨hne, hlen, hall⟩ := ensure_ok_iff.mp hsafe
        exact ⟨rfl, .inr ⟨rest, rfl, hne, Nat.le_trans (length_le_len rest) hlen, hall⟩⟩
      · cases hvalue

/-! ## The client's headers -/

/-- The headers of the list, in order. -/
def listedHeaders (headers : HeaderMap) : HeaderMap := headers.filter fun h => h.1 ∈ forwardedHeaders

theorem getAll_listedHeaders {headers : HeaderMap} {name : String} (h : name.toList ∈ forwardedHeaders) :
    (listedHeaders headers).getAll name = headers.getAll name :=
  getAll_filter fun e _ he => by rw [he]; exact decide_eq_true h

/-- What is sent depends on the headers of the list only. -/
theorem forwardRequestHeaders_listed (headers : HeaderMap) (upstream : UpstreamKind)
    (includeContentType : Bool) :
    forwardRequestHeaders (listedHeaders headers) upstream includeContentType
      = forwardRequestHeaders headers upstream includeContentType := by
  unfold forwardRequestHeaders listedHeaders
  split
  · rfl
  · rw [List.filter_filter]
    refine List.filter_congr fun h _ => ?_
    rw [Bool.and_right_comm, Bool.and_self]

theorem upstreamUrl_listed (urls : UrlParser) (upstream : UpstreamKind) (headers : HeaderMap)
    (route : Route) (query : Option Str) :
    upstreamUrl urls upstream (listedHeaders headers) route query
      = upstreamUrl urls upstream headers route query := by
  unfold upstreamUrl HeaderMap.get
  rw [getAll_listedHeaders (by decide)]

theorem hasSingleAuthorization_listed (headers : HeaderMap) :
    hasSingleAuthorization (listedHeaders headers) = hasSingleAuthorization headers := by
  unfold hasSingleAuthorization
  rw [getAll_listedHeaders (by decide)]

/-- Two clients that are authorized alike and send the same listed headers cannot be told apart. -/
theorem models_congr (state : GatewayState) (send : UpstreamRequest → Option UpstreamResponse)
    {headers headers' : HeaderMap} (query : Option Str)
    (hauthorized : state.authorized headers' = state.authorized headers)
    (hlisted : listedHeaders headers' = listedHeaders headers) :
    state.models send headers' query = state.models send headers query := by
  have hsingle : hasSingleAuthorization headers' = hasSingleAuthorization headers := by
    rw [← hasSingleAuthorization_listed headers', hlisted, hasSingleAuthorization_listed]
  have hurl : ∀ query, upstreamUrl state.urls state.upstream headers' .models query
      = upstreamUrl state.urls state.upstream headers .models query := fun query => by
    rw [← upstreamUrl_listed _ _ headers', hlisted, upstreamUrl_listed]
  have hforward : forwardRequestHeaders headers' state.upstream false
      = forwardRequestHeaders headers state.upstream false := by
    rw [← forwardRequestHeaders_listed headers', hlisted, forwardRequestHeaders_listed]
  simp only [GatewayState.models, hauthorized, hsingle, hurl, hforward]

/-! ## Confinement -/

variable {R : Type} {crates : Crates} {config : GatewayConfig} {state : GatewayState}
  {shared : Shared R} {send : UpstreamRequest → Option UpstreamResponse} {headers : HeaderMap}
  {query : Option Str} {request : UpstreamRequest} {response : RelayedResponse}

/-- What is sent has passed every check. -/
theorem models_sent (h : (state.models send headers query).1 = some request) :
    state.authorized headers = true ∧
    (state.upstream.isOpenai = true → hasSingleAuthorization headers = true) ∧
    validatedModelsQuery query = .ok query ∧
    upstreamUrl state.urls state.upstream headers .models query = .ok request.target ∧
    request.headers = forwardRequestHeaders headers state.upstream false ∧ request.body = [] := by
  unfold GatewayState.models at h
  split at h
  · cases h
  rename_i hauthorized
  split at h
  · cases h
  rename_i hsingle
  cases hquery : validatedModelsQuery query with
  | error e =>
      rw [hquery] at h
      cases h
  | ok query' =>
      obtain ⟨rfl, _⟩ := validatedModelsQuery_ok hquery
      simp only [hquery] at h
      cases htarget : upstreamUrl state.urls state.upstream headers .models query' with
      | error e =>
          rw [htarget] at h
          cases h
      | ok target =>
          simp only [htarget] at h
          obtain rfl : ⟨target, forwardRequestHeaders headers state.upstream false, []⟩ = request := by
            split at h
            · exact Option.some.inj h
            · exact Option.some.inj h
          refine ⟨by simpa using hauthorized, fun hopenai => ?_, rfl, rfl, rfl, rfl⟩
          by_contra hmissing
          exact hsingle ⟨hopenai, by simpa using hmissing⟩

/-- What comes back is the answer to what was sent. -/
theorem models_received (h : (state.models send headers query).2 = .ok response) :
    ∃ request upstream, (state.models send headers query).1 = some request ∧
      send request = some upstream ∧ response = relayModels upstream := by
  unfold GatewayState.models at h ⊢
  split at h
  · cases h
  rename_i hauthorized
  rw [if_neg hauthorized]
  split at h
  · cases h
  rename_i hsingle
  rw [if_neg hsingle]
  split at h
  · cases h
  rename_i query' hquery
  split at h
  · cases h
  rename_i target htarget
  simp only at h
  split at h
  · rename_i upstream hsend
    cases h
    simp only [hsend]
    exact ⟨_, upstream, rfl, hsend, rfl⟩
  · cases h

/-- The chunks of a plain stream are those of the upstream before its first error. -/
theorem relayPlain_chunks (arrivals : List Arrival) :
    (relayPlain arrivals).1.map some = (arrivals.map Arrival.chunk).takeWhile Option.isSome ∧
      ((relayPlain arrivals).2 = none ↔ ∀ arrival ∈ arrivals, arrival.chunk.isSome = true) := by
  induction arrivals with
  | nil => simp [relayPlain]
  | cons arrival arrivals ih =>
      obtain ⟨nowMs, chunk⟩ := arrival
      cases chunk with
      | none => simp [relayPlain]
      | some chunk =>
          obtain ⟨hchunks, herror⟩ := ih
          simp [relayPlain, hchunks, herror]

/-- What discovery sends to the real upstream. -/
structure DiscoveryLive (urls : UrlParser) (headers : HeaderMap) (query : Option Str)
    (request : UpstreamRequest) : Prop where
  target : ∃ url, (urls.parse chatgptModelsUrl = some url ∨ urls.parse apiModelsUrl = some url) ∧
    request.target = query.elim url (urls.setQuery url)
  headers : request.headers.Sublist headers
  names : ∀ h ∈ request.headers, h.1 ∈ forwardedHeaders ∧ h.1 ≠ "content-type".toList ∧
    h.1 ≠ localSessionHeader.toList
  authorization : ∃ value, request.headers.getAll "authorization" = [value]

/-- What discovery sends to a test upstream. -/
structure DiscoveryLoopback (crates : Crates) (base : Url) (query : Option Str)
    (request : UpstreamRequest) : Prop where
  target : ∃ url, crates.urls.join base "/v1/models".toList = some url ∧
    request.target = query.elim url (crates.urls.setQuery url)
  scheme : crates.parts.scheme base = "http".toList
  loopback : ∃ host address, crates.parts.hostStr base = some host ∧
    crates.parts.parseIpAddr host = some address ∧ address.isLoopback = true
  headers : request.headers = [("x-agentveil-synthetic".toList, bytes "true".toList)]

/-- The address of discovery, with the query. -/
theorem upstreamUrl_target {urls : UrlParser} {upstream : UpstreamKind} {target : Url}
    (h : upstreamUrl urls upstream headers .models query = .ok target) :
    ∃ url, target = query.elim url (urls.setQuery url) ∧
      (∀ base, upstream = .loopbackTest base → urls.join base "/v1/models".toList = some url) ∧
      (upstream = .openAi → urls.parse chatgptModelsUrl = some url ∨ urls.parse apiModelsUrl = some url) := by
  unfold upstreamUrl at h
  cases upstream with
  | loopbackTest base =>
      obtain ⟨url, hurl, h⟩ := bind_ok_iff.mp h
      refine ⟨url, ?_, fun _ hbase => ?_, fun hopenai => by cases hopenai⟩
      · cases query with
        | none => exact (Except.ok.inj h).symm
        | some query => exact (Except.ok.inj h).symm
      · cases hbase
        exact okOr_ok_iff.mp hurl
  | openAi =>
      obtain ⟨url, hurl, h⟩ := bind_ok_iff.mp h
      refine ⟨url, ?_, fun _ hbase => (by cases hbase), fun _ => ?_⟩
      · cases query with
        | none => exact (Except.ok.inj h).symm
        | some query => exact (Except.ok.inj h).symm
      · have hparse := okOr_ok_iff.mp hurl
        cases haccount : (headers.get "chatgpt-account-id").isSome with
        | true =>
            rw [haccount] at hparse
            exact .inl hparse
        | false =>
            rw [haccount] at hparse
            exact .inr hparse

theorem discoveryLive (hopenai : state.upstream = .openAi)
    (h : (state.models send headers query).1 = some request) :
    DiscoveryLive state.urls headers query request := by
  obtain ⟨_, hsingle, _, htarget, hheaders, _⟩ := models_sent h
  have hsingle := hsingle (by rw [hopenai]; rfl)
  rw [hopenai] at htarget hheaders
  simp only [forwardRequestHeaders, UpstreamKind.isOpenai, Bool.not_true, Bool.false_eq_true, if_false,
    Bool.false_or] at hheaders
  have hname : localSessionHeader.toList ∉ forwardedHeaders := by decide
  obtain ⟨url, htarget, _, hparse⟩ := upstreamUrl_target htarget
  refine ⟨⟨url, hparse rfl, htarget⟩, hheaders ▸ List.filter_sublist, fun h hh => ?_, ?_⟩
  · rw [hheaders] at hh
    obtain ⟨hlisted, htype⟩ := Bool.and_eq_true_iff.mp (List.mem_filter.mp hh).2
    have hlisted := of_decide_eq_true hlisted
    exact ⟨hlisted, of_decide_eq_true htype, fun heq => hname (heq ▸ hlisted)⟩
  · rw [hheaders, getAll_filter]
    · unfold hasSingleAuthorization at hsingle
      split at hsingle
      · exact ⟨_, ‹_›⟩
      · cases hsingle
    · intro e _ he
      rw [he]
      decide

theorem discoveryLoopback {base : Url} (built : Built crates config state shared)
    (hbase : config.upstream = .loopbackTest base)
    (h : (state.models send headers query).1 = some request) :
    DiscoveryLoopback crates base query request := by
  obtain ⟨hupstream, hvalid⟩ := built.upstream
  obtain ⟨_, _, _, htarget, hheaders, _⟩ := models_sent h
  rw [hupstream, hbase] at htarget hheaders
  rw [hbase] at hvalid
  obtain ⟨hscheme, hloopback⟩ := validateLoopbackTestUrl_ok hvalid
  obtain ⟨url, htarget, hurl, _⟩ := upstreamUrl_target htarget
  have hurl := hurl base rfl
  rw [built.urls] at hurl htarget
  exact ⟨⟨url, hurl, htarget⟩, hscheme, hloopback, hheaders⟩

/-- What discovery lets out and in: a request without a body for an authorized client, with the headers of
the list to the real upstream and with none to a test upstream; the status, the headers of its own list and
the bytes of the answer; and nothing else of the client makes a difference. -/
theorem models_confined (built : Built crates config state shared)
    (send : UpstreamRequest → Option UpstreamResponse) (headers : HeaderMap) (query : Option Str) :
    (∀ request, (state.models send headers query).1 = some request →
      state.authorized headers = true ∧ VersionQuery query ∧ request.body = [] ∧
        (config.upstream = .openAi ∧ DiscoveryLive crates.urls headers query request ∨
          ∃ base, config.upstream = .loopbackTest base ∧ DiscoveryLoopback crates base query request)) ∧
    (∀ response, (state.models send headers query).2 = .ok response →
      ∃ request upstream, (state.models send headers query).1 = some request ∧
        send request = some upstream ∧ response.status = upstream.status ∧
        response.headers.Sublist upstream.headers ∧
        (∀ h ∈ response.headers, isResponseHeader h.1 = true) ∧
        response.chunks.map some = (upstream.arrivals.map Arrival.chunk).takeWhile Option.isSome ∧
        (response.error = none ↔ ∀ arrival ∈ upstream.arrivals, arrival.chunk.isSome = true)) ∧
    ∀ headers', state.authorized headers' = state.authorized headers →
      listedHeaders headers' = listedHeaders headers →
      state.models send headers' query = state.models send headers query := by
  refine ⟨fun request h => ?_, fun response h => ?_, fun headers' => models_congr state send query⟩
  · obtain ⟨hauthorized, _, hquery, _, _, hbody⟩ := models_sent h
    refine ⟨hauthorized, (validatedModelsQuery_ok hquery).2, hbody, ?_⟩
    cases hkind : config.upstream with
    | openAi =>
        have hlive := discoveryLive (built.upstream.1.trans hkind) h
        rw [built.urls] at hlive
        exact .inl ⟨rfl, hlive⟩
    | loopbackTest base => exact .inr ⟨base, rfl, discoveryLoopback built hkind h⟩
  · obtain ⟨request, upstream, hrequest, hsend, rfl⟩ := models_received h
    obtain ⟨hchunks, herror⟩ := relayPlain_chunks upstream.arrivals
    exact ⟨request, upstream, hrequest, hsend, rfl, List.filter_sublist,
      fun h hh => (List.mem_filter.mp hh).2, hchunks, herror⟩

/-- A test upstream whose answer has a cookie. -/
def demoModels (_ : UpstreamRequest) : Option UpstreamResponse :=
  some ⟨200, [("set-cookie".toList, []), ("x-request-id".toList, [])], [⟨0, some [123, 125]⟩]⟩

theorem models_confined_demo :
    (demoGateway.models demoModels demoHeaders (some "client_version=0.1.6".toList)).2.toOption.map
        (fun response => (response.headers, response.chunks))
      = some ([("x-request-id".toList, [])], [[123, 125]]) ∧
    demoGateway.models demoModels (("cookie".toList, []) :: demoHeaders) none
      = demoGateway.models demoModels demoHeaders none := by
  constructor
  · decide +kernel
  · obtain ⟨_, _, hsame⟩ := models_confined (built_of_buildRouter buildRouter_demo) demoModels demoHeaders
      none
    exact hsame _ (by decide +kernel) (by decide +kernel)

end AgentVeil
