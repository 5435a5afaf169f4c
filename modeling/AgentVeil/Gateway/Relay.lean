import AgentVeil.Engine.RoundTrip
import AgentVeil.Engine.Runs
import AgentVeil.Gateway
import AgentVeil.Sse.Lemmas.Simulation
import AgentVeil.Sse.Theorems

/-!
# The relay

The stream of `relay_upstream`: the chunks of the upstream go through the transformer, whose closure is
the engine at the time of each chunk. Other requests may use the engine between two chunks. Within one
chunk, and as long as no other request comes in between, a restoration changes nothing that is shown
later.
-/

namespace AgentVeil

open Rust
open Rust.Value (mapStrings)

/-! ## The stream -/

def RestorationMode.sseMode : RestorationMode → Option SseRestorationMode
  | disabled => none
  | syntheticDisplayText => some .syntheticDisplayText
  | syntheticDisplayDeltaOnly => some .syntheticDisplayDeltaOnly

/-- What the stream of the upstream yields, and the time at which it is handled. -/
structure Arrival where
  nowMs : Nat
  /-- The bytes, or an error of the upstream. -/
  chunk : Option (List UInt8)

/-- An arrival, and what other requests do to the state of the closure before it is handled. -/
structure Turn (σ : Type) extends Arrival where
  meanwhile : σ → σ

inductive StreamError where
  | upstream
  | sse (error : SseError)
  deriving DecidableEq

section Stream

variable {σ : Type}

/-- The stream with a transformer: what it yields, the error it ends with, and what becomes of the state
of the closure. -/
def relayTransformed (json : SerdeJson) (restore : Nat → Str → StateM σ Str) :
    SseTransformer → List (Turn σ) → σ → List (List UInt8) × Option StreamError × σ
  | transformer, [], st =>
      match transformer.finish with
      | .error e => ([], some (.sse e), st)
      | .ok () => ([], none, st)
  | _, ⟨⟨_, none⟩, meanwhile⟩ :: _, st => ([], some .upstream, meanwhile st)
  | transformer, ⟨⟨nowMs, some chunk⟩, meanwhile⟩ :: turns, st =>
      -- the engine is locked for the chunk
      match transformer.push json (restore nowMs) chunk (meanwhile st) with
      | (.error e, _, st) => ([], some (.sse e), st)
      | (.ok frames, transformer, st) =>
          let (more, error, st) := relayTransformed json restore transformer turns st
          (frames ++ more, error, st)

/-- The stream as it comes. -/
def relayPlain : List Arrival → List (List UInt8) × Option StreamError
  | [] => ([], none)
  | ⟨_, none⟩ :: _ => ([], some .upstream)
  | ⟨_, some chunk⟩ :: arrivals =>
      let (more, error) := relayPlain arrivals
      (chunk :: more, error)

/-- `value.to_ascii_lowercase().starts_with("text/event-stream")` -/
def isSse (headers : HeaderMap) : Bool :=
  ((headers.get "content-type").bind headerText).any fun value =>
    "text/event-stream".toList.isPrefixOf (value.map toAsciiLowercase)

/-- The body of `relay_upstream`, for a response to `/v1/responses`. -/
def relayUpstream (json : SerdeJson) (restorationMode : RestorationMode)
    (restore : Nat → Str → StateM σ Str) (headers : HeaderMap) (turns : List (Turn σ)) (st : σ) :
    List (List UInt8) × Option StreamError × σ :=
  match if isSse headers then restorationMode.sseMode else none with
  | some mode => relayTransformed json restore (.new mode) turns st
  | none =>
      let (chunks, error) := relayPlain (turns.map Turn.toArrival)
      (chunks, error, turns.foldl (fun st turn => turn.meanwhile st) st)

/-- Nothing comes before the arrival. -/
def Arrival.alone (arrival : Arrival) : Turn σ := ⟨arrival, id⟩

theorem foldl_alone (arrivals : List Arrival) (st : σ) :
    (arrivals.map Arrival.alone).foldl (fun st turn => turn.meanwhile st) st = st := by
  induction arrivals with
  | nil => rfl
  | cons _ arrivals ih => exact ih

end Stream

namespace PrivacyEngine

variable {R : Type}

/-- The closure of `relay_upstream`. Restoration never panics, so that it always returns a text. -/
def restoreFor (scope : SessionScope) (nowMs : Nat) (text : Str) : StateM (PrivacyEngine R) Str :=
  fun engine =>
    let (restored, engine) := engine.restoreDisplayText scope text nowMs
    (restored.getD text, engine)

/-- What the engine shows for a text. -/
def shown (engine : PrivacyEngine R) (scope : SessionScope) (nowMs : Nat) (text : Str) : Str :=
  (restoreFor scope nowMs text engine).1

/-! ## Restoration changes nothing that is shown -/

/-- From a time on, tokens mean the same to two engines. -/
def SameMeaning (now : Nat) (engine engine' : PrivacyEngine R) : Prop :=
  ∀ scope t v later, now ≤ later →
    (engine'.ledger.Maps scope t v later ↔ engine.ledger.Maps scope t v later)

variable {engine engine' : PrivacyEngine R} {scope : SessionScope} {now later : Nat}

theorem SameMeaning.refl (now : Nat) (engine : PrivacyEngine R) : SameMeaning now engine engine :=
  fun _ _ _ _ _ => Iff.rfl

theorem SameMeaning.mono (h : SameMeaning now engine engine') (le : now ≤ later) :
    SameMeaning later engine engine' :=
  fun scope t v at_ hat => h scope t v at_ (Nat.le_trans le hat)

theorem SameMeaning.reveal (h : SameMeaning now engine engine') (t : Token) :
    engine'.ledger.reveal scope now t = engine.ledger.reveal scope now t := by
  rcases engine.ledger.reveal_cases scope now t with ⟨v, hv, hr⟩ | ⟨hnone, hr⟩
  · rw [hr, ((h scope t v now (Nat.le_refl now)).mpr hv).reveal]
  · rw [hr, TokenLedger.reveal_of_not_maps]
    exact fun v hv => hnone v ((h scope t v now (Nat.le_refl now)).mp hv)

/-- The engine's closure is a function of the text, and it leaves every token what it means. -/
theorem sameTexts_shown (engine : PrivacyEngine R) (scope : SessionScope) (now : Nat) :
    SameTexts (fun engine' (_ : Unit) => SameMeaning now engine engine') (restoreFor scope now)
      (pureRestore (engine.shown scope now)) := by
  intro text engine' _ h
  obtain ⟨ps, last, _, _, _, hrestore⟩ := @exists_candidates R text
  constructor
  · have hreveal : engine'.ledger.reveal scope now = engine.ledger.reveal scope now := funext h.reveal
    have hleft := @hrestore scope now engine'
    have hright := @hrestore scope now engine
    rw [hreveal, ← hright] at hleft
    exact congrArg (Option.getD · text) hleft
  · intro scope' t v later le
    exact (maps_restoreMatches le).trans (h scope' t v later le)

/-- A frame is written with every text that it displays as the engine shows it. -/
theorem transformFrame_shown {json : SerdeJson} {mode : SseRestorationMode} {frame out : List UInt8}
    (h : transformFrame json mode (restoreFor scope now) frame engine = (.ok out, engine')) :
    ∃ text, bytes text = frame ∧
      Transformed json mode (pureRestore (engine.shown scope now)) text () out () := by
  obtain ⟨hvalue, _⟩ := simulates_transformFrame json mode (sameTexts_shown engine scope now) frame
    engine () (.refl now engine)
  apply transformFrame_ok
  rw [h] at hvalue
  exact Prod.ext hvalue.symm rfl

/-! ## A whole stream -/

variable [RandomSource R] (u : Unicode) (serde : SerdeJson)

/-- The engine after restorations for the session, which have changed nothing that is shown. -/
structure Restored (scope : SessionScope) (now : Nat) (engine engine' : PrivacyEngine R) : Prop where
  meaning : SameMeaning now engine engine'
  calls : ∃ calls : List EngineCall,
    (∀ call ∈ calls, ∃ text at_, call = .restoreDisplayText scope text at_) ∧
      engine' = run u serde engine calls

theorem sameTexts_restored (engine : PrivacyEngine R) (scope : SessionScope) (now : Nat) :
    SameTexts (fun engine' (_ : Unit) => Restored u serde scope now engine engine')
      (restoreFor scope now) (pureRestore (engine.shown scope now)) := by
  intro text engine' _ h
  obtain ⟨hvalue, hmeaning⟩ := sameTexts_shown engine scope now text engine' () h.meaning
  refine ⟨hvalue, hmeaning, ?_⟩
  obtain ⟨calls, hcalls, rfl⟩ := h.calls
  refine ⟨calls ++ [.restoreDisplayText scope text now], ?_, ?_⟩
  · intro call hcall
    rcases List.mem_append.mp hcall with hcall | hcall
    · exact hcalls call hcall
    · exact ⟨text, now, List.mem_singleton.mp hcall⟩
  · rw [run_concat]
    rfl

/-- The stream of one session alone: what it yields is what the engine at its start shows. -/
theorem relayTransformed_shown (json : SerdeJson) (engine : PrivacyEngine R) (scope : SessionScope)
    (transformer : SseTransformer) {arrivals : List Arrival} {now : Nat} {engine' : PrivacyEngine R}
    (ordered : (arrivals.map Arrival.nowMs).Pairwise (· ≤ ·)) (later : ∀ a ∈ arrivals, now ≤ a.nowMs)
    (restored : Restored u serde scope now engine engine') :
    (relayTransformed json (restoreFor scope) transformer (arrivals.map Arrival.alone) engine').1
      = (relayTransformed json (fun at_ => pureRestore (engine.shown scope at_)) transformer
          (arrivals.map Arrival.alone) ()).1 ∧
    (relayTransformed json (restoreFor scope) transformer (arrivals.map Arrival.alone) engine').2.1
      = (relayTransformed json (fun at_ => pureRestore (engine.shown scope at_)) transformer
          (arrivals.map Arrival.alone) ()).2.1 ∧
    ∃ now', Restored u serde scope now' engine
      (relayTransformed json (restoreFor scope) transformer (arrivals.map Arrival.alone) engine').2.2 := by
  induction arrivals generalizing transformer now engine' with
  | nil =>
      rw [List.map_nil, List.map_nil]
      unfold relayTransformed
      cases transformer.finish with
      | error e => exact ⟨rfl, rfl, now, restored⟩
      | ok => exact ⟨rfl, rfl, now, restored⟩
  | cons arrival arrivals ih =>
      obtain ⟨at_, chunk⟩ := arrival
      obtain ⟨hle, hrest⟩ := List.pairwise_cons.mp ordered
      cases chunk with
      | none => exact ⟨rfl, rfl, now, restored⟩
      | some chunk =>
          -- the engine of a chunk means what the one at the start does, from the time of the chunk on
          obtain ⟨hframes, hself, hstate⟩ := push_simulates json
            (sameTexts_restored u serde engine scope at_) transformer chunk (t := ())
            ⟨restored.meaning.mono (later _ List.mem_cons_self), restored.calls⟩
          simp only [List.map_cons, Arrival.alone, relayTransformed, id_eq]
          generalize transformer.push json (restoreFor scope at_) chunk engine' = r
            at hframes hself hstate ⊢
          generalize transformer.push json (pureRestore (engine.shown scope at_)) chunk () = r'
            at hframes hself hstate ⊢
          obtain ⟨frames, self, engine''⟩ := r
          obtain ⟨frames', self', _⟩ := r'
          obtain rfl : frames = frames' := hframes
          obtain rfl : self = self' := hself
          cases frames with
          | error e => exact ⟨rfl, rfl, at_, hstate⟩
          | ok frames =>
              obtain ⟨hmore, herror, hend⟩ := ih self hrest
                (fun a ha => hle _ (List.mem_map.mpr ⟨a, ha, rfl⟩)) hstate
              exact ⟨congrArg (frames ++ ·) hmore, herror, hend⟩

/-! ## A stream among other requests -/

/-- The engines at the chunks of a stream: other requests call the engine before each chunk, and in it the
stream does nothing but restore for its session. -/
inductive Interleaved (scope : SessionScope) :
    PrivacyEngine R → List (List EngineCall) → List (PrivacyEngine R) → Prop where
  | nil {engine : PrivacyEngine R} : Interleaved scope engine [] []
  | cons {engine : PrivacyEngine R} {calls callss own} {engines : List (PrivacyEngine R)}
      (restores : ∀ call ∈ own, ∃ text at_, call = EngineCall.restoreDisplayText scope text at_)
      (rest : Interleaved scope (run u serde (run u serde engine calls) own) callss engines) :
      Interleaved scope engine (calls :: callss) (run u serde engine calls :: engines)

/-- A chunk in which nothing is restored. -/
theorem Interleaved.idle {engine : PrivacyEngine R} {calls : List EngineCall}
    {callss : List (List EngineCall)} {engines : List (PrivacyEngine R)}
    (rest : Interleaved u serde scope (run u serde engine calls) callss engines) :
    Interleaved u serde scope engine (calls :: callss) (run u serde engine calls :: engines) := by
  have nothing : ∀ call ∈ ([] : List EngineCall), ∃ text at_,
      call = EngineCall.restoreDisplayText scope text at_ := by simp
  exact .cons nothing rest

theorem Interleaved.length {engine : PrivacyEngine R} {callss : List (List EngineCall)}
    {engines : List (PrivacyEngine R)} (h : Interleaved u serde scope engine callss engines) :
    engines.length = callss.length := by
  induction h with
  | nil => rfl
  | cons _ _ ih => exact congrArg (· + 1) ih

/-- A turn after calls of other requests. -/
def turnAfter (turn : Arrival × List EngineCall) : Turn (PrivacyEngine R) :=
  ⟨turn.1, fun engine => run u serde engine turn.2⟩

omit [RandomSource R] in
/-- What the engine shows, without an effect. -/
def showFor (scope : SessionScope) (nowMs : Nat) (text : Str) : StateM (PrivacyEngine R) Str :=
  fun engine => (engine.shown scope nowMs text, engine)

/-- A turn at which the engine is the given one. -/
def turnAt (turn : Arrival × List EngineCall) (engine : PrivacyEngine R) : Turn (PrivacyEngine R) :=
  ⟨turn.1, fun _ => engine⟩

theorem toArrival_turnAfter (turns : List (Arrival × List EngineCall)) :
    (turns.map (turnAfter (R := R) u serde)).map Turn.toArrival = turns.map Prod.fst := by
  rw [List.map_map]
  rfl

omit [RandomSource R] in
theorem toArrival_turnAt {turns : List (Arrival × List EngineCall)} {engines : List (PrivacyEngine R)}
    (h : engines.length = turns.length) :
    (List.zipWith turnAt turns engines).map Turn.toArrival = turns.map Prod.fst := by
  induction turns generalizing engines with
  | nil => rfl
  | cons turn turns ih =>
      obtain ⟨engine, engines, rfl⟩ := List.exists_cons_of_length_eq_add_one h
      exact congrArg (turn.1 :: ·) (ih (Nat.succ.inj h))

theorem exists_interleaved (scope : SessionScope) (engine : PrivacyEngine R)
    (callss : List (List EngineCall)) :
    ∃ engines, Interleaved u serde scope engine callss engines := by
  induction callss generalizing engine with
  | nil => exact ⟨[], .nil⟩
  | cons calls callss ih =>
      obtain ⟨engines, h⟩ := ih (run u serde engine calls)
      exact ⟨_, .idle u serde h⟩

/-- What a chunk yields is what the engine at its lock shows, whatever was shown before it. -/
theorem relayTransformed_interleaved (json : SerdeJson) (scope : SessionScope)
    (transformer : SseTransformer) (turns : List (Arrival × List EngineCall))
    (engine frozen : PrivacyEngine R) :
    ∃ engines, Interleaved u serde scope engine (turns.map Prod.snd) engines ∧
      (relayTransformed json (restoreFor scope) transformer (turns.map (turnAfter u serde)) engine).1
        = (relayTransformed json (showFor scope) transformer (List.zipWith turnAt turns engines)
            frozen).1 ∧
      (relayTransformed json (restoreFor scope) transformer (turns.map (turnAfter u serde)) engine).2.1
        = (relayTransformed json (showFor scope) transformer (List.zipWith turnAt turns engines)
            frozen).2.1 := by
  induction turns generalizing transformer engine frozen with
  | nil =>
      refine ⟨[], .nil, ?_⟩
      simp only [List.map_nil, List.zipWith_nil_left, relayTransformed]
      cases transformer.finish with
      | error e => exact ⟨rfl, rfl⟩
      | ok => exact ⟨rfl, rfl⟩
  | cons turn turns ih =>
      obtain ⟨⟨at_, chunk⟩, calls⟩ := turn
      cases chunk with
      | none =>
          obtain ⟨engines, h⟩ := exists_interleaved u serde scope (run u serde engine calls)
            (turns.map Prod.snd)
          exact ⟨_, .idle u serde h, rfl, rfl⟩
      | some chunk =>
          have htexts : SameTexts (fun engine' engine'' : PrivacyEngine R =>
              engine'' = run u serde engine calls ∧
                Restored u serde scope at_ (run u serde engine calls) engine')
              (restoreFor scope at_) (showFor scope at_) := by
            rintro text engine' _ ⟨rfl, h⟩
            obtain ⟨hvalue, hstate⟩ := sameTexts_restored u serde _ scope at_ text engine' () h
            exact ⟨hvalue, rfl, hstate⟩
          obtain ⟨hframes, hself, _, hstate⟩ := push_simulates json htexts transformer chunk
            (s := run u serde engine calls) ⟨rfl, .refl at_ _, [], by simp, rfl⟩
          obtain ⟨own, hown, hafter⟩ := hstate.calls
          generalize hr : transformer.push json (restoreFor scope at_) chunk (run u serde engine calls) = r
            at hframes hself hafter
          generalize hr' : transformer.push json (showFor scope at_) chunk (run u serde engine calls) = r'
            at hframes hself
          obtain ⟨frames, self, engine'⟩ := r
          obtain ⟨frames', self', frozen'⟩ := r'
          obtain rfl : frames = frames' := hframes
          obtain rfl : self = self' := hself
          obtain rfl : engine' = _ := hafter
          obtain ⟨engines, h, hmore, herror⟩ := ih self (run u serde (run u serde engine calls) own) frozen'
          refine ⟨_, .cons hown h, ?_⟩
          simp only [List.map_cons, List.zipWith_cons_cons, turnAfter, turnAt, relayTransformed, hr, hr']
          cases frames with
          | error e => exact ⟨rfl, rfl⟩
          | ok frames => exact ⟨congrArg (frames ++ ·) hmore, herror⟩

/-- What a client receives is decided chunk by chunk by the engine as it is when it is locked for the chunk,
however the stream is cut, whatever it holds and whatever other requests do in between: a restoration
neither depends on those before it in the chunk nor changes what they show. When no other request comes in
between, it is what the engine at the start of the stream gives, which has done nothing but restore for
the session. A text is shown with its candidates replaced, all at once, by what they stand for at that
time. -/
theorem relayUpstream_shown (json : SerdeJson) (restorationMode : RestorationMode)
    (engine : PrivacyEngine R) (scope : SessionScope) (headers : HeaderMap)
    (turns : List (Arrival × List EngineCall)) (arrivals : List Arrival) :
    (∃ engines, Interleaved u serde scope engine (turns.map Prod.snd) engines ∧
      (relayUpstream json restorationMode (restoreFor scope) headers (turns.map (turnAfter u serde))
          engine).1
        = (relayUpstream json restorationMode (showFor scope) headers (List.zipWith turnAt turns engines)
            engine).1 ∧
      (relayUpstream json restorationMode (restoreFor scope) headers (turns.map (turnAfter u serde))
          engine).2.1
        = (relayUpstream json restorationMode (showFor scope) headers (List.zipWith turnAt turns engines)
            engine).2.1) ∧
    ((arrivals.map Arrival.nowMs).Pairwise (· ≤ ·) →
      (relayUpstream json restorationMode (restoreFor scope) headers (arrivals.map Arrival.alone)
          engine).1
        = (relayUpstream json restorationMode (fun at_ => pureRestore (engine.shown scope at_)) headers
            (arrivals.map Arrival.alone) ()).1 ∧
      (relayUpstream json restorationMode (restoreFor scope) headers (arrivals.map Arrival.alone)
          engine).2.1
        = (relayUpstream json restorationMode (fun at_ => pureRestore (engine.shown scope at_)) headers
            (arrivals.map Arrival.alone) ()).2.1 ∧
      ∃ calls : List EngineCall,
        (∀ call ∈ calls, ∃ text at_, call = .restoreDisplayText scope text at_) ∧
          (relayUpstream json restorationMode (restoreFor scope) headers (arrivals.map Arrival.alone)
            engine).2.2 = run u serde engine calls) ∧
    ∀ (engine' : PrivacyEngine R) at_ text, ∃ ps last, text = splice id ps last ∧
      (∀ p ∈ ps, Free IsCandidate p.1 ∧ IsCandidate p.2) ∧ Free IsCandidate last ∧
      engine'.shown scope at_ text = splice (engine'.ledger.reveal scope at_) ps last := by
  have hshown : ∀ (engine' : PrivacyEngine R) at_ text, ∃ ps last, text = splice id ps last ∧
      (∀ p ∈ ps, Free IsCandidate p.1 ∧ IsCandidate p.2) ∧ Free IsCandidate last ∧
      engine'.shown scope at_ text = splice (engine'.ledger.reveal scope at_) ps last := by
    intro engine' at_ text
    obtain ⟨ps, last, htext, hparts, hlast, hrestore⟩ := @exists_candidates R text
    exact ⟨ps, last, htext, hparts, hlast, congrArg (Option.getD · text) hrestore⟩
  have start : Restored u serde scope 0 engine engine := ⟨.refl 0 engine, [], by simp, rfl⟩
  unfold relayUpstream
  generalize (if isSse headers then restorationMode.sseMode else none) = mode
  cases mode with
  | none =>
      obtain ⟨engines, h⟩ := exists_interleaved u serde scope engine (turns.map Prod.snd)
      have hlen : engines.length = turns.length := by
        rw [h.length, List.length_map]
      refine ⟨⟨engines, h, ?_, ?_⟩, fun _ => ?_, hshown⟩
      · simp only [toArrival_turnAfter, toArrival_turnAt hlen]
      · simp only [toArrival_turnAfter, toArrival_turnAt hlen]
      · simp only [List.map_map]
        exact ⟨rfl, rfl, [], by simp, foldl_alone arrivals engine⟩
  | some mode =>
      refine ⟨relayTransformed_interleaved u serde json scope (.new mode) turns engine engine,
        fun ordered => ?_, hshown⟩
      obtain ⟨hframes, herror, _, hend⟩ := relayTransformed_shown u serde json engine scope (.new mode)
        ordered (fun _ _ => Nat.zero_le _) start
      exact ⟨hframes, herror, hend.calls⟩

/-- The token of the demonstration. -/
def demoDelta : String := "[AV_EMAIL_01010101010101010101010101010101]"

def echoSerde : SerdeJson :=
  .ofTable [(deltaJson demoDelta, deltaValue demoDelta), (deltaJson "a@b.co", deltaValue "a@b.co")]
    (by decide)

def demoSse : HeaderMap := [("content-type".toList, bytes "text/event-stream".toList)]

/-- A frame in two chunks. -/
def demoArrivals : List Arrival :=
  [⟨1, some ((deltaFrame demoDelta).take 60)⟩, ⟨2, some ((deltaFrame demoDelta).drop 60)⟩]

/-- Two frames; before the second one another request clears the session. -/
def demoTurns : List (Arrival × List EngineCall) :=
  [(⟨1, some (deltaFrame demoDelta)⟩, []), (⟨2, some (deltaFrame demoDelta)⟩, [.clearScope demoScope])]

theorem relayUpstream_demo :
    (relayUpstream echoSerde .syntheticDisplayText (restoreFor demoScope) demoSse
        (demoArrivals.map Arrival.alone) demoLater).1 = [deltaFrame "a@b.co"] ∧
      (relayUpstream echoSerde .syntheticDisplayText (restoreFor demoScope) demoSse
        (demoTurns.map (turnAfter Unicode.ascii mailSerde)) demoLater).1
          = [deltaFrame "a@b.co", deltaFrame demoDelta] ∧
      (transformFrame echoSerde .syntheticDisplayText (restoreFor demoScope 1) (deltaFrame demoDelta)
        demoLater).1 = .ok (deltaFrame "a@b.co") := by
  decide +kernel

theorem relayUpstream_shown_demo :
    (∃ engines, Interleaved Unicode.ascii mailSerde demoScope demoLater (demoTurns.map Prod.snd) engines ∧
      [deltaFrame "a@b.co", deltaFrame demoDelta] = (relayUpstream echoSerde .syntheticDisplayText
        (showFor demoScope) demoSse (List.zipWith turnAt demoTurns engines) demoLater).1) ∧
    [deltaFrame "a@b.co"] = (relayUpstream echoSerde .syntheticDisplayText
      (fun at_ => pureRestore (demoLater.shown demoScope at_)) demoSse (demoArrivals.map Arrival.alone)
      ()).1 ∧
    (relayUpstream echoSerde .syntheticDisplayText (restoreFor demoScope) demoSse
        (demoArrivals.map Arrival.alone) demoLater).2.1
      = (relayUpstream echoSerde .syntheticDisplayText
          (fun at_ => pureRestore (demoLater.shown demoScope at_)) demoSse
          (demoArrivals.map Arrival.alone) ()).2.1 ∧
    ∃ calls : List EngineCall,
      (∀ call ∈ calls, ∃ text at_, call = .restoreDisplayText demoScope text at_) ∧
        (relayUpstream echoSerde .syntheticDisplayText (restoreFor demoScope) demoSse
          (demoArrivals.map Arrival.alone) demoLater).2.2 = run Unicode.ascii mailSerde demoLater calls := by
  have ordered : (demoArrivals.map Arrival.nowMs).Pairwise (· ≤ ·) := by decide
  obtain ⟨halone, hturns, _⟩ := relayUpstream_demo
  obtain ⟨⟨engines, hengines, hframes, _⟩, hstream, _⟩ := relayUpstream_shown Unicode.ascii mailSerde
    echoSerde .syntheticDisplayText demoLater demoScope demoSse demoTurns demoArrivals
  obtain ⟨hone, herror, hcalls⟩ := hstream ordered
  exact ⟨⟨engines, hengines, hturns.symm.trans hframes⟩, halone.symm.trans hone, herror, hcalls⟩

/-! ## What the upstream sends back -/

variable {u serde} {body : List UInt8}

/-- What a client sent comes back to it. A string of a request whose resolved findings are all tokenized,
sent back by the upstream as it was forwarded, is displayed as the client sent it, as long as the tokens
of the request stand for their values; and every other text of the frame is displayed as the engine shows
it. -/
theorem transformFrame_echo {map : HashMap Token Entry} {maxEntries n : Nat} {random : R}
    {start : TokenLedger R} (new : TokenLedger.withRandom map maxEntries random = .ok start)
    (run : Reaches start n engine.ledger) {r : ForwardRequest}
    (h : (protect u serde engine body scope now).1 = .ok (.forward r)) :
    ∃ request, ∃ is : List Issue, ∃ g, ValidatedRequest.parse serde body = .ok request ∧
      (serde.fromSlice r.body).bind uniqueValue
        = some (serde.reparse (mapStrings g request.value)) ∧
      is.map Issue.key = requestedValues u engine request scope now ∧
      (∃ l, SameLive now engine.ledger l ∧
        Issues engine.policy scope now l is (protect u serde engine body scope now).2.ledger) ∧
      ∀ (later : Nat) (engine' : PrivacyEngine R),
        (∀ i ∈ is, engine'.ledger.Maps scope i.token i.value later) →
        (∀ q s found, (q, s) ∈ request.value.leaves → RewriteLeaf request.value q →
          engine.scanner.scan u s = .ok found →
          (∀ f ∈ resolveOverlaps (actions engine.policy engine.ledger scope now .rewrite s found),
            f.2 = .tokenize) →
          engine'.shown scope later (g q s) = s) ∧
        ∀ json mode frame out engine'',
          transformFrame json mode (restoreFor scope later) frame engine' = (.ok out, engine'') →
          ∃ text, bytes text = frame ∧
            Transformed json mode (pureRestore (engine'.shown scope later)) text () out () := by
  obtain ⟨request, is, g, hparse, hbody, hkeys, hissues, hleaves⟩ := forwarded_spliced new run h
  refine ⟨request, is, g, hparse, hbody, hkeys, hissues, ?_⟩
  intro later engine' hmaps
  refine ⟨?_, fun json mode frame out engine'' hframe => transformFrame_shown hframe⟩
  intro q s found hq hr hs htokenize
  obtain ⟨ps, last, hvalue, htoken, hps, hlast⟩ := hleaves q s found hq hr hs htokenize
  have hrestore := @restoreDisplayText_splice _ scope engine' ps last later
    (fun p hp => (hps p hp).2) hlast (fun p hp => hmaps p.2 (hps p hp).1)
  rw [← htoken, ← hvalue] at hrestore
  exact congrArg (Option.getD · (g q s)) hrestore

theorem transformFrame_demoDelta : ∃ engine'' : PrivacyEngine CounterRandom,
    transformFrame echoSerde .syntheticDisplayText (restoreFor demoScope 1) (deltaFrame demoDelta)
      demoLater = (.ok (deltaFrame "a@b.co"), engine'') := by
  have hout := relayUpstream_demo.2.2
  generalize transformFrame echoSerde .syntheticDisplayText (restoreFor demoScope 1)
    (deltaFrame demoDelta) demoLater = r at hout ⊢
  obtain ⟨out, engine''⟩ := r
  exact ⟨engine'', congrArg (·, engine'') hout⟩

theorem transformFrame_echo_demo : ∃ request, ∃ is : List Issue, ∃ g,
    ValidatedRequest.parse mailSerde (demoBody "a@b.co".toList) = .ok request ∧
      (mailSerde.fromSlice (demoBody demoToken)).bind uniqueValue
        = some (mailSerde.reparse (mapStrings g request.value)) ∧
      is.map Issue.key = requestedValues Unicode.ascii demoEngine request demoScope 0 ∧
      demoLater.shown demoScope 1 (g [key "input"] "a@b.co".toList) = "a@b.co".toList ∧
      ∃ text, bytes text = deltaFrame demoDelta ∧
        Transformed echoSerde .syntheticDisplayText (pureRestore (demoLater.shown demoScope 1)) text ()
          (deltaFrame "a@b.co") () := by
  have run : Reaches demoLedger 0 demoEngine.ledger := .start
  obtain ⟨request, is, g, hparse, hbody, hkeys, ⟨l, hlive, hissues⟩, hecho⟩ := transformFrame_echo
    (rfl : TokenLedger.withRandom HashMap.empty 1 _ = .ok demoLedger) run protect_demo
  have hlater : (demoEngine.protect Unicode.ascii mailSerde (demoBody "a@b.co".toList) demoScope 0).2
      = demoLater := by rw [demoLater]
  rw [hlater] at hissues
  obtain ⟨found, hs, htokenize⟩ := tokenized_demo
  obtain ⟨hstrings, hframes⟩ := hecho 1 demoLater (maps_demoLater hparse hkeys hlive hissues)
  obtain ⟨_, hframe⟩ := transformFrame_demoDelta
  exact ⟨request, is, g, hparse, hbody, hkeys,
    hstrings [key "input"] "a@b.co".toList found (mem_leaves_demo hparse) .input hs htokenize,
    hframes _ _ _ _ _ hframe⟩

end PrivacyEngine

end AgentVeil
