import AgentVeil.Sse.Lemmas.Restored

/-!
# What the transformer promises
-/

namespace AgentVeil

open Rust

/-! ## An event and its frame -/

def deltaValue (text : String) : Value :=
  .object [("delta".toList, .string text.toList), ("type".toList, .string deltaEvent)]

def deltaJson (text : String) : List UInt8 :=
  bytes ("\x7b\"delta\":\"".toList ++ text.toList ++
    "\",\"type\":\"response.output_text.delta\"\x7d".toList)

def deltaFrame (text : String) : List UInt8 :=
  bytes "event: response.output_text.delta\ndata: ".toList ++ deltaJson text ++ bytes "\n\n".toList

/-- The parser and the writer on two events. -/
def deltaSerde : SerdeJson :=
  .ofTable [(deltaJson "TOKEN", deltaValue "TOKEN"),
    (deltaJson "ava@example.test", deltaValue "ava@example.test")] (by decide)

def revealToken (text : Str) : Str :=
  if text = "TOKEN".toList then "ava@example.test".toList else text

/-- A closure that only computes. -/
def pureRestore (restore : Str → Str) (text : Str) : StateM Unit Str := pure (restore text)

theorem transformFrame_delta : transformFrame deltaSerde .syntheticDisplayText
    (pureRestore revealToken) (deltaFrame "TOKEN") () = (.ok (deltaFrame "ava@example.test"), ()) := by
  change (_ : Except SseError (List UInt8) × Unit) = _
  decide +kernel

/-! ## Chunks -/

theorem transformAll_pure {json : SerdeJson} {mode : SseRestorationMode} {restore : Str → Str}
    {fs : List (List UInt8)}
    (h : ∀ f ∈ fs, ∃ out, transformFrame json mode (pureRestore restore) f () = (.ok out, ())) :
    ∃ outs, transformAll json mode (pureRestore restore) fs () = (.ok outs, ()) := by
  induction fs with
  | nil => exact ⟨[], rfl⟩
  | cons f fs ih =>
      obtain ⟨⟨out, hf⟩, hfs⟩ := List.forall_mem_cons.mp h
      obtain ⟨outs, hrest⟩ := ih hfs
      exact ⟨out :: outs, transformAll_cons.mpr ⟨out, outs, (), hf, hrest, rfl⟩⟩

/-- However a stream is cut into chunks, the frames that come out, the bytes that stay in the buffer
and so the verdict at the end are those of one push. -/
theorem pushAll_eq_push (json : SerdeJson) (mode : SseRestorationMode) (restore : Str → Str)
    {stream t : List UInt8} {fs : List (List UInt8)} (hs : Frames stream fs t)
    (hfs : ∀ f ∈ fs, f.length ≤ maxSseEventBytes) (ht : t.length ≤ maxSseEventBytes)
    (hok : ∀ f ∈ fs, ∃ out, transformFrame json mode (pureRestore restore) f () = (.ok out, ()))
    {chunks : List (List UInt8)} (hc : chunks.flatten = stream) :
    ∃ outs self,
      pushAll json (pureRestore restore) (.new mode) chunks () = (.ok outs, self, ()) ∧
      (SseTransformer.new mode).push json (pureRestore restore) stream () = (.ok outs, self, ()) ∧
      outs.length = fs.length ∧ fs.flatten ++ self.buffer = stream := by
  obtain ⟨outs, houts⟩ := transformAll_pure hok
  have hnil : findFrameEnd [] = none := rfl
  subst hc
  have hchunks := @pushAll_frames _ json mode _ chunks [] _ _ _ hs hnil hfs ht _ _ houts
  have hone := @push_frames _ json mode _ [] chunks.flatten _ _ _ hs
    (fun hnone => by
      obtain ⟨rfl, rfl⟩ := hs.unique (.tail hnone)
      exact ht) _ _ houts
  exact ⟨outs, ⟨t, mode⟩, hchunks, hone, length_transformAll houts, hs.flatten⟩

theorem pushAll_eq_push_demo : ∃ outs self,
    pushAll deltaSerde (pureRestore revealToken) (.new .syntheticDisplayText)
      [(deltaFrame "TOKEN").take 60, (deltaFrame "TOKEN").drop 60 ++ [0x3A], [0x20]] ()
        = (.ok outs, self, ()) ∧
    (SseTransformer.new .syntheticDisplayText).push deltaSerde (pureRestore revealToken)
      (deltaFrame "TOKEN" ++ [0x3A, 0x20]) () = (.ok outs, self, ()) ∧
    outs.length = 1 ∧ [deltaFrame "TOKEN"].flatten ++ self.buffer
      = deltaFrame "TOKEN" ++ [0x3A, 0x20] := by
  have hs : Frames (deltaFrame "TOKEN" ++ [0x3A, 0x20]) [deltaFrame "TOKEN"] [0x3A, 0x20] := by
    have hend : findFrameEnd (deltaFrame "TOKEN" ++ [0x3A, 0x20])
        = some (deltaFrame "TOKEN").length := by decide +kernel
    have hrest : Frames ((deltaFrame "TOKEN" ++ [0x3A, 0x20]).drop (deltaFrame "TOKEN").length) []
        [0x3A, 0x20] := by
      rw [List.drop_left]
      exact .tail (by decide)
    have := Frames.frame hend hrest
    rwa [List.take_left] at this
  exact pushAll_eq_push deltaSerde .syntheticDisplayText revealToken hs (by decide +kernel)
    (by decide) (fun f hf => by
      rw [List.mem_singleton.mp hf]
      exact ⟨_, transformFrame_delta⟩) (by decide)

/-! ## Restoration -/

def logprobValue (text : String) (bits : UInt64) : Value :=
  .object [("delta".toList, .string text.toList), ("logprob".toList, .number (.float bits)),
    ("type".toList, .string deltaEvent)]

def logprobJson (text digits : String) : List UInt8 :=
  bytes ("\x7b\"delta\":\"".toList ++ text.toList ++ "\",\"logprob\":".toList ++ digits.toList ++
    ",\"type\":\"response.output_text.delta\"\x7d".toList)

def logprobFrame (text digits : String) : List UInt8 :=
  bytes "data: ".toList ++ logprobJson text digits ++ bytes "\n\n".toList

/-- An event with a float. The digits it is written with are read as the float next to it. -/
def logprobSerde : SerdeJson :=
  .ofTables [(logprobJson "TOKEN" "-0.9676380963621542", logprobValue "TOKEN" demoFloat),
      (logprobJson "ava@example.test" "-0.9676380963621543",
        logprobValue "ava@example.test" (demoFloat + 1))]
    [(logprobJson "ava@example.test" "-0.9676380963621543", logprobValue "ava@example.test" demoFloat)]
    demoReread finite_demoReread (by decide +kernel)

/-- A float of the event is another one in what is written. -/
theorem transformFrame_float :
    transformFrame logprobSerde .syntheticDisplayText (pureRestore revealToken)
        (logprobFrame "TOKEN" "-0.9676380963621542") ()
      = (.ok (logprobFrame "ava@example.test" "-0.9676380963621543"), ()) ∧
    logprobSerde.fromStr (logprobJson "TOKEN" "-0.9676380963621542")
      = some (logprobValue "TOKEN" demoFloat) ∧
    logprobSerde.fromStr (logprobJson "ava@example.test" "-0.9676380963621543")
      = some (logprobValue "ava@example.test" (demoFloat + 1)) ∧
    logprobValue "ava@example.test" (demoFloat + 1)
      ≠ replaceLeaves [([.key "delta".toList], "ava@example.test".toList)]
          (logprobValue "TOKEN" demoFloat) := by
  refine ⟨?_, ?_, ?_, ?_⟩
  · change (_ : Except SseError (List UInt8) × Unit) = _
    decide +kernel
  · decide +kernel
  · decide +kernel
  · decide +kernel

/-- What is written for a frame: the frame, or the frame with the event of its data line restored at
the display leaves, each by one call of the closure. What is read for the written event is that event, but
for floats whose digits are read as other floats. -/
theorem transformFrame_restores {σ : Type} (json : SerdeJson) (mode : SseRestorationMode)
    (restore : Str → StateM σ Str) {frame out : List UInt8} {st st' : σ}
    (h : transformFrame json mode restore frame st = (.ok out, st')) :
    (∃ text, bytes text = frame ∧ Transformed json mode restore text st out st') ∧
      ∀ eventType event, LeavesOf event (displayLeaves eventType event) :=
  ⟨transformFrame_ok h, leavesOf_displayLeaves⟩

theorem transformFrame_restores_demo :
    (∃ text, bytes text = deltaFrame "TOKEN" ∧ Transformed deltaSerde .syntheticDisplayText
      (pureRestore revealToken) text () (deltaFrame "ava@example.test") ()) ∧
      ∀ eventType event, LeavesOf event (displayLeaves eventType event) :=
  transformFrame_restores deltaSerde .syntheticDisplayText (pureRestore revealToken)
    transformFrame_delta

/-! ## Framing -/

/-- Whatever the closure returns, a frame becomes one frame with the same other lines and the same
data line or none, and the frames of a stream become the frames of the output. -/
theorem transformFrame_framed {σ : Type} {json : SerdeJson} (hjson : json.Compact)
    (mode : SseRestorationMode) (restore : Str → StateM σ Str) :
    (∀ frame out st st', findFrameEnd frame = some frame.length →
      transformFrame json mode restore frame st = (.ok out, st') →
        findFrameEnd out = some out.length ∧ SameLines json frame out) ∧
    ∀ frames outs st st', (∀ f ∈ frames, findFrameEnd f = some f.length) →
      transformAll json mode restore frames st = (.ok outs, st') → Frames outs.flatten outs [] := by
  have hone : ∀ frame out st st', findFrameEnd frame = some frame.length →
      transformFrame json mode restore frame st = (.ok out, st') →
        findFrameEnd out = some out.length ∧ SameLines json frame out := by
    intro frame out st st' hframe h
    obtain ⟨text, rfl, htransformed⟩ := transformFrame_ok h
    exact htransformed.framed hjson hframe
  refine ⟨hone, fun frames outs st st' hframes h => ?_⟩
  induction frames generalizing outs st with
  | nil =>
      obtain ⟨⟩ := h
      exact .tail rfl
  | cons f frames ih =>
      obtain ⟨hf, hframes⟩ := List.forall_mem_cons.mp hframes
      obtain ⟨out, outs', st₁, hout, hrest, rfl⟩ := transformAll_cons.mp h
      have hend := findFrameEnd_append (hone _ _ _ _ hf hout).1 outs'.flatten
      have := Frames.frame hend (by rw [List.drop_left]; exact ih _ _ hframes hrest)
      rw [List.take_left] at this
      exact this

/-- A closure that returns the end of a frame and a data line. -/
def revealLines (text : Str) : Str :=
  if text = "TOKEN".toList then "ava\n\ndata: \"b\"".toList else text

/-- Its text is written with escapes. -/
def linesSerde : SerdeJson :=
  .ofTable [(deltaJson "TOKEN", deltaValue "TOKEN"),
    (deltaJson "ava\\n\\ndata: \\\"b\\\"", deltaValue "ava\n\ndata: \"b\"")] (by decide)

theorem compact_linesSerde : linesSerde.Compact := by
  refine SerdeJson.compact_ofTable (fun d hd => ?_) (by decide +kernel) (by decide +kernel)
  simp only [List.mem_cons, List.not_mem_nil, or_false] at hd
  rcases hd with rfl | rfl
  · exact ⟨_, rfl⟩
  · exact ⟨_, rfl⟩

theorem transformFrame_lines : transformFrame linesSerde .syntheticDisplayText
    (pureRestore revealLines) (deltaFrame "TOKEN") ()
      = (.ok (deltaFrame "ava\\n\\ndata: \\\"b\\\""), ()) := by
  change (_ : Except SseError (List UInt8) × Unit) = _
  decide +kernel

theorem transformFrame_framed_demo :
    findFrameEnd (deltaFrame "ava\\n\\ndata: \\\"b\\\"")
        = some (deltaFrame "ava\\n\\ndata: \\\"b\\\"").length ∧
      SameLines linesSerde (deltaFrame "TOKEN") (deltaFrame "ava\\n\\ndata: \\\"b\\\"") ∧
      Frames [deltaFrame "ava\\n\\ndata: \\\"b\\\""].flatten
        [deltaFrame "ava\\n\\ndata: \\\"b\\\""] [] := by
  have hframe : findFrameEnd (deltaFrame "TOKEN") = some (deltaFrame "TOKEN").length := by
    decide +kernel
  obtain ⟨hone, hall⟩ := transformFrame_framed compact_linesSerde .syntheticDisplayText
    (pureRestore revealLines)
  obtain ⟨hend, hlines⟩ := hone _ _ _ _ hframe transformFrame_lines
  exact ⟨hend, hlines, hall [deltaFrame "TOKEN"] _ () () (by simpa using hframe)
    (transformAll_cons.mpr ⟨_, _, (), transformFrame_lines, rfl, rfl⟩)⟩

end AgentVeil
