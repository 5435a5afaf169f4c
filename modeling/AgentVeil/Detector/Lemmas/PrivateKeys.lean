import AgentVeil.Detector.Scanner

/-!
# Reading the private key markers

The scan reads a text from the left: it skips to the next opening marker and passes over the block
that begins there. What it reports depends on the text only.
-/

namespace AgentVeil

open Rust

/-- An opening marker whose label is not one of a private key. -/
def Foreign (m : Str) : Prop :=
  ∃ label, m = beginMarker ++ (label ++ dashes) ∧ First dashes label ∧ label ∉ privateKeyLabels

/-- A private key from its opening marker to the first closing marker with its label. -/
def KeyBlock (m : Str) : Prop :=
  ∃ label body, m = beginMarker ++ (label ++ (dashes ++ (body ++ endMarker label))) ∧
    label ∈ privateKeyLabels ∧ First (endMarker label) body

def Block (m : Str) : Prop := Foreign m ∨ KeyBlock m

/-- The ranges reported for a text from the prefix that has been read. -/
inductive Reports (text : Str) : Str → List Span → Prop where
  | done {a b} : text = a ++ b → findStr beginMarker b = none → Reports text a []
  | unterminated {a gap b} : text = a ++ (gap ++ (beginMarker ++ b)) → First beginMarker gap →
      findStr dashes b = none → Reports text a [⟨len (a ++ gap), len text⟩]
  | foreign {a gap m b ranges} : text = a ++ (gap ++ (m ++ b)) → First beginMarker gap →
      Foreign m → Reports text (a ++ (gap ++ m)) ranges → Reports text a ranges
  | unclosed {a gap label b} : text = a ++ (gap ++ (beginMarker ++ (label ++ (dashes ++ b)))) →
      First beginMarker gap → label ∈ privateKeyLabels → findStr (endMarker label) b = none →
      Reports text a [⟨len (a ++ gap), len text⟩]
  | key {a gap m b ranges} : text = a ++ (gap ++ (m ++ b)) → First beginMarker gap →
      KeyBlock m → Reports text (a ++ (gap ++ m)) ranges →
      Reports text a (⟨len (a ++ gap), len (a ++ (gap ++ m))⟩ :: ranges)

def keyFinding (view : ScanView) (r : Span) : Fallible DetectorError (List Finding) := do
  let f ← view.finding r .privateKey .pemPrivateKey .high
  .ok [f]

theorem sliceFrom?_append (a b : Str) : sliceFrom? (a ++ b) (len a) = some b := by
  simp [sliceFrom?]

theorem first_dashes : ∀ label ∈ privateKeyLabels, First dashes label := by decide

/-- The loop from a prefix that has been read. -/
theorem scanPrivateKeysFrom_reports {text a b : Str} (htext : text = a ++ b) {fuel : Nat}
    (hfuel : len b < fuel) : ∃ ranges, Reports text a ranges ∧ ∀ view : ScanView,
      view.text = text → scanPrivateKeysFrom view fuel (len a) = gather (keyFinding view) ranges := by
  induction fuel generalizing a b with
  | zero => omega
  | succ fuel ih =>
      have hbegin : len beginMarker = 11 := by decide
      have hdashes : len dashes = 5 := by decide
      have hslice : sliceFrom? text (len a) = some b := by rw [htext, sliceFrom?_append]
      have hone : ∀ (view : ScanView) (r : Span), gather (keyFinding view) [r] = (do
          let f ← view.finding r .privateKey .pemPrivateKey .high
          .ok [f]) := by
        intro view r
        simp only [gather, keyFinding]
        cases view.finding r .privateKey .pemPrivateKey .high <;> rfl
      cases hfind : findStr beginMarker b with
      | none =>
          refine ⟨[], .done htext hfind, fun view hview => ?_⟩
          simp only [scanPrivateKeysFrom, hview, hslice, orPanic, ok_bind, hfind, gather]
      | some relative =>
      obtain ⟨gap, rest, rfl, rfl, hgap⟩ := findStr_first hfind
      have hslice₁ : sliceFrom? text (len a + len gap + len beginMarker) = some rest := by
        rw [← len_append, ← len_append, ← sliceFrom?_append (a ++ gap ++ beginMarker) rest, htext]
        simp
      cases hlabel : findStr dashes rest with
      | none =>
          refine ⟨_, .unterminated htext hgap hlabel, fun view hview => ?_⟩
          rw [hone]
          simp only [scanPrivateKeysFrom, hview, hslice, hslice₁, orPanic, ok_bind, hfind, hlabel,
            len_append]
      | some labelEnd =>
      obtain ⟨label, body, rfl, rfl, hfirst⟩ := findStr_first hlabel
      have hget : get? text ⟨len a + len gap + len beginMarker,
          len a + len gap + len beginMarker + len label⟩ = some label :=
        get?_eq_some_iff.mpr ⟨a ++ gap ++ beginMarker, dashes ++ body, by rw [htext]; simp,
          by simp only [len_append], rfl⟩
      have hafter : len (a ++ (gap ++ (beginMarker ++ (label ++ dashes))))
          = len a + len gap + len beginMarker + len label + 5 := by
        simp only [len_append, hdashes]; omega
      by_cases hknown : label ∈ privateKeyLabels
      · have hslice₂ : sliceFrom? text (len a + len gap + len beginMarker + len label + 5)
            = some body := by
          rw [← hafter, ← sliceFrom?_append (a ++ (gap ++ (beginMarker ++ (label ++ dashes)))) body,
            htext]
          simp
        cases hend : findStr (endMarker label) body with
        | none =>
            refine ⟨_, .unclosed htext hgap hknown hend, fun view hview => ?_⟩
            rw [hone]
            simp only [scanPrivateKeysFrom, hview, hslice, hslice₁, hslice₂, hget, orPanic, ok_bind,
              hfind, hlabel, hend, hknown, not_true_eq_false, ↓reduceIte, len_append]
        | some endRelative =>
        obtain ⟨inner, tail, rfl, rfl, hinner⟩ := findStr_first hend
        have hblock : KeyBlock (beginMarker ++ (label ++ (dashes ++ (inner ++ endMarker label)))) :=
          ⟨label, inner, rfl, hknown, hinner⟩
        have hstop : text = a ++ (gap ++
            (beginMarker ++ (label ++ (dashes ++ (inner ++ endMarker label))) ++ tail)) := by
          rw [htext]; simp
        have hstopLen : len a + len gap + len beginMarker + len label + 5 + len inner
            + len (endMarker label) = len (a ++ (gap ++
              (beginMarker ++ (label ++ (dashes ++ (inner ++ endMarker label)))))) := by
          simp only [len_append, hdashes]; omega
        obtain ⟨ranges, hranges, hscan⟩ := @ih (a ++ (gap ++
          (beginMarker ++ (label ++ (dashes ++ (inner ++ endMarker label)))))) tail
          (by rw [hstop]; simp) (by simp only [len_append] at hfuel; omega)
        refine ⟨_, .key hstop hgap hblock hranges, fun view hview => ?_⟩
        simp only [scanPrivateKeysFrom, hview, hslice, hslice₁, hslice₂, hget, orPanic, ok_bind,
          hfind, hlabel, hend, hknown, not_true_eq_false, ↓reduceIte, hstopLen, hscan view hview,
          gather, keyFinding]
        rw [len_append a gap]
        cases view.finding _ .privateKey .pemPrivateKey .high <;> rfl
      · have hblock : Foreign (beginMarker ++ (label ++ dashes)) := ⟨label, rfl, hfirst, hknown⟩
        have hstop : text = a ++ (gap ++ (beginMarker ++ (label ++ dashes) ++ body)) := by
          rw [htext]; simp
        obtain ⟨ranges, hranges, hscan⟩ := @ih (a ++ (gap ++ (beginMarker ++ (label ++ dashes)))) body
          (by rw [hstop]; simp) (by simp only [len_append] at hfuel; omega)
        refine ⟨ranges, .foreign hstop hgap hblock hranges, fun view hview => ?_⟩
        simp only [scanPrivateKeysFrom, hview, hslice, hslice₁, hget, orPanic, ok_bind, hfind, hlabel,
          hknown, not_false_eq_true, ↓reduceIte]
        rw [← hafter]
        exact hscan view hview

theorem scanPrivateKeys_reports (text : Str) : ∃ ranges, Reports text [] ranges ∧
    ∀ view : ScanView, view.text = text →
      scanPrivateKeys view = gather (keyFinding view) ranges := by
  obtain ⟨ranges, hranges, hscan⟩ := @scanPrivateKeysFrom_reports text [] text rfl _
    (Nat.lt_succ_self _)
  refine ⟨ranges, hranges, fun view hview => ?_⟩
  rw [scanPrivateKeys, hview]
  exact hscan view hview

/-- The ranges lie in the text, after what has been read. -/
theorem Reports.within {text a : Str} {ranges : List Span} (h : Reports text a ranges) :
    ∀ r ∈ ranges, len a ≤ r.start ∧ r.start < r.stop ∧ r.stop ≤ len text := by
  have hbegin : len beginMarker = 11 := by decide
  induction h with
  | done _ _ => simp
  | unterminated htext _ _ =>
      intro r hr
      obtain rfl := List.mem_singleton.mp hr
      rw [htext]
      simp only [len_append]
      omega
  | foreign htext _ _ _ ih =>
      intro r hr
      obtain ⟨h₁, h₂, h₃⟩ := ih r hr
      rw [len_append] at h₁
      exact ⟨by omega, h₂, h₃⟩
  | unclosed htext _ _ _ =>
      intro r hr
      obtain rfl := List.mem_singleton.mp hr
      rw [htext]
      simp only [len_append]
      omega
  | key htext _ hm _ ih =>
      intro r hr
      obtain ⟨label, body, rfl, _, _⟩ := hm
      rcases List.mem_cons.mp hr with rfl | hr
      · rw [htext]
        simp only [len_append]
        omega
      · obtain ⟨h₁, h₂, h₃⟩ := ih r hr
        rw [len_append] at h₁
        exact ⟨by omega, h₂, h₃⟩

/-! ## Swallowed markers -/

/-- Reading on from a prefix, the text at `start` comes to lie inside a block: one with a foreign
label, or a key that is closed before `stop`. -/
inductive Swallowed (text : Str) (start stop : Nat) : Str → Prop where
  | inside {a gap m b} : text = a ++ (gap ++ (m ++ b)) → First beginMarker gap → Block m →
      len (a ++ gap) < start → start < len (a ++ (gap ++ m)) →
      (KeyBlock m → len (a ++ (gap ++ m)) < stop) → Swallowed text start stop a
  | later {a gap m b} : text = a ++ (gap ++ (m ++ b)) → First beginMarker gap → Block m →
      len (a ++ (gap ++ m)) ≤ start → Swallowed text start stop (a ++ (gap ++ m)) →
      Swallowed text start stop a

theorem Block.header {m : Str} (h : Block m) : ∃ label rest,
    m = beginMarker ++ (label ++ (dashes ++ rest)) ∧ First dashes label ∧
      (Foreign m ∧ label ∉ privateKeyLabels ∧ rest = [] ∨ KeyBlock m ∧ label ∈ privateKeyLabels ∧
        ∃ body, rest = body ++ endMarker label ∧ First (endMarker label) body) := by
  rcases h with hforeign | hkey
  · have hblock := hforeign
    obtain ⟨label, rfl, hfirst, hlabel⟩ := hforeign
    exact ⟨label, [], by simp, hfirst, .inl ⟨hblock, hlabel, rfl⟩⟩
  · have hblock := hkey
    obtain ⟨label, body, rfl, hlabel, hbody⟩ := hkey
    exact ⟨label, body ++ endMarker label, rfl, first_dashes label hlabel,
      .inr ⟨hblock, hlabel, body, rfl, hbody⟩⟩

theorem Foreign.not_keyBlock {m : Str} (hf : Foreign m) : ¬KeyBlock m := by
  rintro ⟨label, body, rfl, hlabel, _⟩
  obtain ⟨label', he, hfirst, hnot⟩ := hf
  have hsame : label ++ (dashes ++ (body ++ endMarker label)) = label' ++ (dashes ++ []) := by
    rw [List.append_nil]
    exact (List.append_right_inj beginMarker).mp he
  obtain ⟨rfl, _⟩ := (first_dashes label hlabel).unique hfirst hsame
  exact hnot hlabel

/-- The text determines the next block. -/
theorem Block.unique {m b m' b' : Str} (h : Block m) (h' : Block m') (he : m ++ b = m' ++ b') :
    m = m' ∧ b = b' := by
  obtain ⟨label, rest, hm, hfirst, hcase⟩ := h.header
  obtain ⟨label', rest', hm', hfirst', hcase'⟩ := h'.header
  have heq : label ++ (dashes ++ (rest ++ b)) = label' ++ (dashes ++ (rest' ++ b')) := by
    rw [hm, hm'] at he
    simpa using he
  obtain ⟨rfl, hrest⟩ := hfirst.unique hfirst' heq
  rcases hcase with ⟨_, hlabel, rfl⟩ | ⟨_, hlabel, body, rfl, hbody⟩
  · rcases hcase' with ⟨_, _, rfl⟩ | ⟨_, hlabel', _⟩
    · exact ⟨hm.trans hm'.symm, hrest⟩
    · exact absurd hlabel' hlabel
  · rcases hcase' with ⟨_, hlabel', _⟩ | ⟨_, _, body', rfl, hbody'⟩
    · exact absurd hlabel hlabel'
    · rw [List.append_assoc, List.append_assoc] at hrest
      obtain ⟨rfl, rfl⟩ := hbody.unique hbody' hrest
      exact ⟨hm.trans hm'.symm, rfl⟩

theorem Block.starts {m : Str} (h : Block m) : ∃ rest, m = beginMarker ++ rest := by
  obtain ⟨label, rest, hm, _⟩ := h.header
  exact ⟨_, hm⟩

theorem next_block {a gap m b gap' m' b' : Str} (hgap : First beginMarker gap) (hm : Block m)
    (hgap' : First beginMarker gap') (hm' : Block m')
    (he : a ++ (gap ++ (m ++ b)) = a ++ (gap' ++ (m' ++ b'))) : gap = gap' ∧ m = m' ∧ b = b' := by
  obtain ⟨rest, hrest⟩ := hm.starts
  obtain ⟨rest', hrest'⟩ := hm'.starts
  have hsame := List.append_cancel_left he
  have hmarkers : gap ++ (beginMarker ++ (rest ++ b)) = gap' ++ (beginMarker ++ (rest' ++ b')) := by
    rw [hrest, hrest'] at hsame
    simpa using hsame
  obtain ⟨rfl, _⟩ := hgap.unique hgap' hmarkers
  exact ⟨rfl, hm.unique hm' (List.append_cancel_left hsame)⟩

/-- What the next block does to the text at `start`. -/
theorem Swallowed.iff {text a gap m b : Str} {start stop : Nat} (htext : text = a ++ (gap ++ (m ++ b)))
    (hgap : First beginMarker gap) (hm : Block m) : Swallowed text start stop a ↔
      (len (a ++ gap) < start ∧ start < len (a ++ (gap ++ m)) ∧
        (KeyBlock m → len (a ++ (gap ++ m)) < stop)) ∨
      (len (a ++ (gap ++ m)) ≤ start ∧ Swallowed text start stop (a ++ (gap ++ m))) := by
  constructor
  · intro h
    cases h with
    | inside htext' hgap' hm' h₁ h₂ h₃ =>
        obtain ⟨rfl, rfl, rfl⟩ := next_block hgap' hm' hgap hm (htext'.symm.trans htext)
        exact .inl ⟨h₁, h₂, h₃⟩
    | later htext' hgap' hm' hle hrest =>
        obtain ⟨rfl, rfl, rfl⟩ := next_block hgap' hm' hgap hm (htext'.symm.trans htext)
        exact .inr ⟨hle, hrest⟩
  · rintro (⟨h₁, h₂, h₃⟩ | ⟨hle, hrest⟩)
    · exact .inside htext hgap hm h₁ h₂ h₃
    · exact .later htext hgap hm hle hrest

/-- Without a next block nothing is swallowed. -/
theorem not_swallowed {text a : Str} {start stop : Nat} (h : ∀ gap m b, First beginMarker gap →
    Block m → text ≠ a ++ (gap ++ (m ++ b))) : ¬Swallowed text start stop a := by
  intro hs
  cases hs with
  | inside htext hgap hm _ _ _ => exact h _ _ _ hgap hm htext
  | later htext hgap hm _ _ => exact h _ _ _ hgap hm htext

/-- The end of the key that a header opens before `b`: its first closing marker, or the end. -/
def keyStop (start : Nat) (label b : Str) : Nat :=
  start + len beginMarker + len label + len dashes + match findStr (endMarker label) b with
    | none => len b
    | some i => i + len (endMarker label)

theorem lt_keyStop (start : Nat) (label b : Str) : start < keyStop start label b := by
  have hbegin : len beginMarker = 11 := by decide
  unfold keyStop
  omega

theorem keyStop_le (start : Nat) (label b : Str) :
    keyStop start label b ≤ start + len beginMarker + len label + len dashes + len b := by
  unfold keyStop
  cases hend : findStr (endMarker label) b with
  | none => exact Nat.le_refl _
  | some i =>
      obtain ⟨inner, tail, rfl, rfl⟩ := findStr_eq_some hend
      simp only [len_append]
      omega

/-- A header in the unread text is covered exactly when it is not swallowed. -/
theorem Reports.covers_iff {text r : Str} {ranges : List Span} (h : Reports text r ranges)
    {a label b : Str} (htext : text = a ++ (beginMarker ++ (label ++ (dashes ++ b))))
    (hlabel : label ∈ privateKeyLabels) (hr : len r ≤ len a) :
    (∃ s ∈ ranges, s.start ≤ len a ∧ keyStop (len a) label b ≤ s.stop) ↔
      ¬Swallowed text (len a) (keyStop (len a) label b) r := by
  have hstop : keyStop (len a) label b ≤ len text := by
    have := keyStop_le (len a) label b
    rw [htext]
    simp only [len_append]
    omega
  -- what is read next does not begin after the header
  have hnext : ∀ {p gap rest : Str}, text = p ++ (gap ++ (beginMarker ++ rest)) → len p ≤ len a →
      First beginMarker gap → ∃ mid, a = p ++ mid ∧ len gap ≤ len mid ∧
        gap ++ (beginMarker ++ rest) = mid ++ (beginMarker ++ (label ++ (dashes ++ b))) := by
    intro p gap rest htext' hle hgap
    obtain ⟨mid, rfl, hmid⟩ := append_split_le (htext'.symm.trans htext) hle
    exact ⟨mid, rfl, hgap.le hmid, hmid⟩
  induction h with
  | done htext' hnone =>
      obtain ⟨mid, _, hmid⟩ := append_split_le (htext'.symm.trans htext) hr
      exact absurd hmid (findStr_eq_none hnone _ _)
  | @unterminated p gap rest htext' hgap hnone =>
      obtain ⟨mid, rfl, hle, hmid⟩ := hnext htext' hr hgap
      refine ⟨fun _ => not_swallowed fun gap' m b' hgap' hm he => ?_, fun _ =>
        ⟨_, List.mem_singleton.mpr rfl, by simp only [len_append]; omega, hstop⟩⟩
      obtain ⟨label', rest', hm', _⟩ := hm.header
      have hsame := List.append_cancel_left (htext'.symm.trans he)
      rw [hm'] at hsame
      have hmarkers : gap ++ (beginMarker ++ rest)
          = gap' ++ (beginMarker ++ (label' ++ (dashes ++ (rest' ++ b')))) := by
        simpa using hsame
      obtain ⟨rfl, hrest⟩ := hgap.unique hgap' hmarkers
      exact absurd hrest (findStr_eq_none hnone _ _)
  | @foreign p gap m b' ranges htext' hgap hm hrest ih =>
      rw [Swallowed.iff htext' hgap (.inl hm)]
      by_cases hle : len (p ++ (gap ++ m)) ≤ len a
      · refine (ih hle).trans ⟨?_, fun hnot hs => hnot (.inr ⟨hle, hs⟩)⟩
        · rintro hnot (⟨_, hlt, _⟩ | ⟨_, hs⟩)
          · omega
          · exact hnot hs
      · -- the header begins inside the foreign block
        obtain ⟨label', rfl, hfirst', hlabel'⟩ := hm
        obtain ⟨mid, rfl, hgaple, hmid⟩ := @hnext p gap (label' ++ (dashes ++ b'))
          (by rw [htext']; simp) hr hgap
        have hlt : len (p ++ gap) < len (p ++ mid) := by
          simp only [len_append]
          refine Nat.add_lt_add_left (Nat.lt_of_le_of_ne hgaple fun heq => ?_) _
          obtain ⟨rfl, hrest'⟩ := append_split_eq hmid heq
          obtain ⟨rfl, _⟩ := hfirst'.unique (first_dashes label hlabel)
            (List.append_cancel_left hrest')
          exact hlabel' hlabel
        refine iff_of_false ?_ (not_not_intro (.inl ⟨hlt, by omega, fun hkey =>
          absurd hkey (Foreign.not_keyBlock ⟨label', rfl, hfirst', hlabel'⟩)⟩))
        rintro ⟨s, hs, hstart, _⟩
        have := (hrest.within s hs).1
        omega
  | @unclosed p gap label' b' htext' hgap hlabel' hnone =>
      obtain ⟨mid, rfl, hle, hmid⟩ := hnext htext' hr hgap
      refine ⟨fun _ => not_swallowed fun gap' m b'' hgap' hm he => ?_, fun _ =>
        ⟨_, List.mem_singleton.mpr rfl, by simp only [len_append]; omega, hstop⟩⟩
      obtain ⟨label'', rest', hm', hfirst', hcase⟩ := hm.header
      have hsame := List.append_cancel_left (htext'.symm.trans he)
      rw [hm'] at hsame
      have hmarkers : gap ++ (beginMarker ++ (label' ++ (dashes ++ b')))
          = gap' ++ (beginMarker ++ (label'' ++ (dashes ++ (rest' ++ b'')))) := by
        simpa using hsame
      obtain ⟨rfl, hrest⟩ := hgap.unique hgap' hmarkers
      obtain ⟨rfl, hbody⟩ := (first_dashes label' hlabel').unique hfirst' hrest
      rcases hcase with ⟨_, hnot, _⟩ | ⟨_, _, body, rfl, _⟩
      · exact hnot hlabel'
      · rw [List.append_assoc] at hbody
        exact absurd hbody (findStr_eq_none hnone _ _)
  | @key p gap m b' ranges htext' hgap hm hrest ih =>
      rw [Swallowed.iff htext' hgap (.inr hm)]
      have hlt := lt_keyStop (len a) label b
      by_cases hle : len (p ++ (gap ++ m)) ≤ len a
      · have hskip : (∃ s ∈ (⟨len (p ++ gap), len (p ++ (gap ++ m))⟩ : Span) :: ranges,
            s.start ≤ len a ∧ keyStop (len a) label b ≤ s.stop) ↔
            ∃ s ∈ ranges, s.start ≤ len a ∧ keyStop (len a) label b ≤ s.stop := by
          rw [List.exists_mem_cons_iff]
          exact or_iff_right fun h => by simp only at h; omega
        refine hskip.trans ((ih hle).trans ⟨?_, fun hnot hs => hnot (.inr ⟨hle, hs⟩)⟩)
        rintro hnot (⟨_, hlt', _⟩ | ⟨_, hs⟩)
        · omega
        · exact hnot hs
      · -- the header begins inside the key, or is its own
        have hcover : (∃ s ∈ (⟨len (p ++ gap), len (p ++ (gap ++ m))⟩ : Span) :: ranges,
            s.start ≤ len a ∧ keyStop (len a) label b ≤ s.stop) ↔
            len (p ++ gap) ≤ len a ∧ keyStop (len a) label b ≤ len (p ++ (gap ++ m)) := by
          rw [List.exists_mem_cons_iff]
          refine or_iff_left ?_
          rintro ⟨s, hs, hstart, _⟩
          have := (hrest.within s hs).1
          omega
        obtain ⟨label', body, rfl, hlabel', hbody⟩ := hm
        obtain ⟨mid, rfl, hgaple, hmid⟩ := @hnext p gap
          (label' ++ (dashes ++ (body ++ (endMarker label' ++ b')))) (by rw [htext']; simp) hr hgap
        refine hcover.trans ?_
        by_cases hown : len gap = len mid
        · obtain ⟨rfl, hrest'⟩ := append_split_eq hmid hown
          obtain ⟨rfl, hafter⟩ := (first_dashes label' hlabel').unique (first_dashes label hlabel)
            (List.append_cancel_left hrest')
          have hfound := findStr_of_first hbody b'
          rw [hafter] at hfound
          have hend : keyStop (len (p ++ gap)) label' b = len (p ++ (gap ++
              (beginMarker ++ (label' ++ (dashes ++ (body ++ endMarker label')))))) := by
            unfold keyStop
            rw [hfound]
            simp only [len_append]
            omega
          refine iff_of_true ⟨Nat.le_refl _, Nat.le_of_eq hend⟩ ?_
          rintro (⟨hlt', _, _⟩ | ⟨hle', _⟩)
          · omega
          · exact hle hle'
        · have hlt' : len (p ++ gap) < len (p ++ mid) := by
            simp only [len_append]
            omega
          constructor
          · rintro ⟨_, hge⟩ (⟨_, _, hclosed⟩ | ⟨hle', _⟩)
            · have := hclosed ⟨label', body, rfl, hlabel', hbody⟩
              omega
            · exact hle hle'
          · intro hnot
            refine ⟨by omega, Nat.le_of_not_lt fun hshort => hnot (.inl ⟨hlt', by omega, fun _ => hshort⟩)⟩

end AgentVeil
