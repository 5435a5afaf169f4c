import AgentVeil.Detector.Theorems

/-!
# Plain text in the views

A plain part of the source, of ASCII characters without a backslash, is in the normalized view as it
is, and each of its bytes maps to itself. What the normalized view has around it is what the texts
around it normalize to.
-/

namespace AgentVeil

open Rust

/-! ## Passes over the bytes -/

/-- The bytes that a pass leaves, without their sources. -/
def rewrittenBytes (rule : ByteRule) : Nat → Option UInt8 → List UInt8 → List UInt8
  | _, _, [] => []
  | skip + 1, _, b :: rest => rewrittenBytes rule skip (some b) rest
  | 0, prev, b :: rest =>
      match rule prev (b :: rest) with
      | some (output, n) => output ++ rewrittenBytes rule (n - 1) (some b) rest
      | none => b :: rewrittenBytes rule 0 (some b) rest

/-- The rule changes at least one byte and none past the end. -/
def ByteRule.Fits (rule : ByteRule) : Prop :=
  ∀ prev bs o n, rule prev bs = some (o, n) → 0 < n ∧ n ≤ bs.length

/-- The byte before the rest of a pass. -/
def lastByte (prev : Option UInt8) (bs : List UInt8) : Option UInt8 :=
  bs.foldl (fun _ b => some b) prev

namespace ScanView

variable {view : ScanView} {rule : ByteRule}

/-- The source of a range lies where the sources of its bytes lie. -/
theorem combinedSource_within {span r : Span} (h : view.combinedSource span = .ok r) {lo hi : Nat}
    (hm : ∀ k m, span.start ≤ k → k < span.stop → view.sourceByByte[k]? = some m →
      lo ≤ m.start ∧ m.stop ≤ hi) : lo ≤ r.start ∧ r.stop ≤ hi := by
  unfold combinedSource at h
  split at h
  · cases h
  rename_i hbad
  simp only at h
  split at h
  swap
  · cases h
  rename_i start stop hmin hmax
  split at h
  · cases h
  cases h
  have hbound : ∀ m ∈ (view.sourceByByte.drop span.start).take (span.stop - span.start),
      lo ≤ m.start ∧ m.stop ≤ hi := by
    intro m hmem
    obtain ⟨k, hk⟩ := List.getElem?_of_mem hmem
    rw [List.getElem?_take] at hk
    split at hk
    · rw [List.getElem?_drop] at hk
      exact hm (span.start + k) m (Nat.le_add_right _ _) (by omega) hk
    · cases hk
  obtain ⟨m, hmem, rfl⟩ := List.mem_map.mp (List.min?_eq_some_iff.mp hmin).1
  obtain ⟨n, hnem, rfl⟩ := List.mem_map.mp (List.max?_eq_some_iff.mp hmax).1
  exact ⟨(hbound m hmem).1, (hbound n hnem).2⟩

theorem replaced_bytes {output : List UInt8} {span : Span} {ps : List (UInt8 × Span)}
    (h : view.replaced output span = .ok ps) : ps.map Prod.fst = output := by
  unfold replaced at h
  split at h
  · rename_i ho
    cases h
    rw [ho]; rfl
  · cases hc : view.combinedSource span with
    | error e => rw [hc] at h; cases h
    | ok source =>
        rw [hc] at h
        cases h
        simp [Function.comp_def]

theorem replaced_within {output : List UInt8} {span : Span} {ps : List (UInt8 × Span)}
    (h : view.replaced output span = .ok ps) {lo hi : Nat}
    (hm : ∀ k m, span.start ≤ k → k < span.stop → view.sourceByByte[k]? = some m →
      lo ≤ m.start ∧ m.stop ≤ hi) : ∀ p ∈ ps, lo ≤ p.2.start ∧ p.2.stop ≤ hi := by
  unfold replaced at h
  split at h
  · cases h
    simp
  · obtain ⟨source, hsource, rfl⟩ := map_ok_iff.mp h
    intro p hp
    obtain ⟨b, _, rfl⟩ := List.mem_map.mp hp
    exact combinedSource_within hsource hm

/-- A pass over two parts, if the rule never reaches from the first into the second. -/
theorem rewriteFrom_append {skip index : Nat} {prev : Option UInt8} {as bs : List UInt8}
    {output : Bool × List (UInt8 × Span)}
    (stops : ∀ prev as' o n, as' ≠ [] → rule prev (as' ++ bs) = some (o, n) → n ≤ as'.length)
    (hskip : skip ≤ as.length)
    (h : view.rewriteFrom rule skip prev index (as ++ bs) = .ok output) :
    ∃ x y, output.2 = x ++ y.2 ∧
      view.rewriteFrom rule 0 (lastByte prev as) (index + as.length) bs = .ok y ∧
      (y.1 = true → output.1 = true) ∧
      ((∀ prev as', as' ≠ [] → rule prev (as' ++ bs) = rule prev as') →
        x.map Prod.fst = rewrittenBytes rule skip prev as) ∧
      ∀ lo hi, (∀ k m, index ≤ k → k < index + as.length → view.sourceByByte[k]? = some m →
        lo ≤ m.start ∧ m.stop ≤ hi) → ∀ p ∈ x, lo ≤ p.2.start ∧ p.2.stop ≤ hi := by
  induction as generalizing skip prev index output with
  | nil =>
      obtain rfl : skip = 0 := by simpa using hskip
      exact ⟨[], output, rfl, h, id, fun _ => rfl, by simp⟩
  | cons a as ih =>
      have hlen : index + (a :: as).length = index + 1 + as.length := by
        rw [List.length_cons]; omega
      rw [hlen]
      cases skip with
      | succ skip =>
          obtain ⟨x, y, hout, hy, hflag, hx, hwithin⟩ := ih (by simpa using hskip) h
          exact ⟨x, y, hout, hy, hflag, hx, fun lo hi hm => hwithin lo hi fun k m hk => hm k m (by omega)⟩
      | zero =>
          simp only [List.cons_append, rewriteFrom] at h
          split at h
          · rename_i o n hrule
            have hn := stops prev (a :: as) o n (by simp) hrule
            simp only [bind_ok_iff, Except.ok.injEq] at h
            obtain ⟨changed, hchanged, tail, htail, rfl⟩ := h
            rw [List.length_cons] at hn
            obtain ⟨x, y, hout, hy, _, hx, hwithin⟩ := ih (by omega) htail
            refine ⟨changed ++ x, y, by rw [hout, List.append_assoc], hy, fun _ => rfl,
              fun hlocal => ?_, fun lo hi hm p hp => ?_⟩
            · have hrule' : rule prev (a :: as) = some (o, n) := by
                rw [← hlocal prev (a :: as) (by simp)]; exact hrule
              simp only [rewrittenBytes, hrule', List.map_append, replaced_bytes hchanged, hx hlocal]
            · rcases List.mem_append.mp hp with hp | hp
              · exact replaced_within hchanged
                  (fun k m hk hk' => hm k m hk (by simp only at hk'; omega)) p hp
              · exact hwithin lo hi (fun k m hk => hm k m (by omega)) p hp
          · rename_i hrule
            simp only [bind_ok_iff, Except.ok.injEq] at h
            obtain ⟨source, hsource, tail, htail, rfl⟩ := h
            obtain ⟨x, y, hout, hy, hflag, hx, hwithin⟩ := ih (Nat.zero_le _) htail
            refine ⟨(a, source) :: x, y, by rw [hout]; rfl, hy, hflag, fun hlocal => ?_,
              fun lo hi hm p hp => ?_⟩
            · have hrule' : rule prev (a :: as) = none := by
                rw [← hlocal prev (a :: as) (by simp)]; exact hrule
              simp only [rewrittenBytes, hrule', List.map_cons, hx hlocal]
            · rcases List.mem_cons.mp hp with rfl | hp
              · exact hm index source (Nat.le_refl _) (by omega) (orPanic_ok_iff.mp hsource)
              · exact hwithin lo hi (fun k m hk => hm k m (by omega)) p hp

theorem rewriteFrom_bytes {skip index : Nat} {prev : Option UInt8} {bs : List UInt8}
    {output : Bool × List (UInt8 × Span)}
    (h : view.rewriteFrom rule skip prev index bs = .ok output) :
    output.2.map Prod.fst = rewrittenBytes rule skip prev bs := by
  induction bs generalizing skip prev index output with
  | nil =>
      cases skip with
      | zero => cases h; rfl
      | succ skip => cases h; rfl
  | cons b bs ih =>
      cases skip with
      | succ skip => exact ih h
      | zero =>
          simp only [rewriteFrom] at h
          split at h
          · rename_i o n hrule
            simp only [bind_ok_iff, Except.ok.injEq] at h
            obtain ⟨changed, hchanged, tail, htail, rfl⟩ := h
            simp only [rewrittenBytes, hrule, List.map_append, replaced_bytes hchanged, ih htail]
          · rename_i hrule
            simp only [bind_ok_iff, Except.ok.injEq] at h
            obtain ⟨source, _, tail, htail, rfl⟩ := h
            simp only [rewrittenBytes, hrule, List.map_cons, ih htail]

/-- Bytes that the rule leaves alone keep their sources. -/
theorem rewriteFrom_plain {index : Nat} {prev : Option UInt8} {ts bs : List UInt8}
    {output : Bool × List (UInt8 × Span)}
    (plain : ∀ prev t ts', t ∈ ts → rule prev (t :: ts') = none)
    (h : view.rewriteFrom rule 0 prev index (ts ++ bs) = .ok output) :
    ∃ x y, output.2 = x ++ y.2 ∧
      view.rewriteFrom rule 0 (lastByte prev ts) (index + ts.length) bs = .ok y ∧
      x.map Prod.fst = ts ∧ x.map Prod.snd = (view.sourceByByte.drop index).take ts.length := by
  induction ts generalizing prev index output with
  | nil => exact ⟨[], output, rfl, h, rfl, rfl⟩
  | cons t ts ih =>
      simp only [List.cons_append, rewriteFrom, plain prev t (ts ++ bs) (by simp), bind_ok_iff,
        orPanic_ok_iff, Except.ok.injEq] at h
      obtain ⟨source, hsource, tail, htail, rfl⟩ := h
      obtain ⟨x, y, hout, hy, hx, hm⟩ := ih (fun prev t ts' ht => plain prev t ts' (by simp [ht])) htail
      obtain ⟨hlt, rfl⟩ := List.getElem?_eq_some_iff.mp hsource
      refine ⟨(t, _) :: x, y, by rw [hout]; rfl, ?_, by rw [List.map_cons, hx], ?_⟩
      · rw [List.length_cons, show index + (ts.length + 1) = index + 1 + ts.length by omega]
        exact hy
      · rw [List.map_cons, hm, List.drop_eq_getElem_cons hlt, List.length_cons, List.take_succ_cons]

/-- A pass whose rule never applies changes nothing. -/
theorem rewriteFrom_untouched {source : Str} (hv : view.MapsTo source) {index : Nat}
    {prev : Option UInt8} {bs : List UInt8} (hlen : index + bs.length = len view.text)
    (plain : ∀ prev b bs', b ∈ bs → rule prev (b :: bs') = none) :
    ∃ ps, view.rewriteFrom rule 0 prev index bs = .ok (false, ps) ∧ ps.map Prod.fst = bs := by
  induction bs generalizing index prev with
  | nil => exact ⟨[], rfl, rfl⟩
  | cons b bs ih =>
      rw [List.length_cons] at hlen
      have hlt : index < view.sourceByByte.length := by rw [hv.length]; omega
      obtain ⟨ps, hps, hmap⟩ := @ih (index + 1) (some b) (by omega)
        fun prev b' bs' hb => plain prev b' bs' (List.mem_cons_of_mem _ hb)
      simp only [rewriteFrom, plain prev b bs (by simp), List.getElem?_eq_getElem hlt, orPanic, hps,
        ok_bind]
      exact ⟨_, rfl, by rw [List.map_cons, hmap]⟩

/-- A pass with such a rule succeeds on a view with a valid map. -/
theorem rewriteFrom_ok {source : Str} (hv : view.MapsTo source) (fits : rule.Fits)
    {skip index : Nat} {prev : Option UInt8} {bs : List UInt8}
    (hlen : index + bs.length = len view.text) :
    ∃ output, view.rewriteFrom rule skip prev index bs = .ok output := by
  induction bs generalizing skip prev index with
  | nil => cases skip <;> exact ⟨_, rfl⟩
  | cons b bs ih =>
      rw [List.length_cons] at hlen
      have ih : ∀ skip, ∃ output, view.rewriteFrom rule skip (some b) (index + 1) bs = .ok output :=
        fun _ => ih (by omega)
      cases skip with
      | succ skip => exact ih skip
      | zero =>
          simp only [rewriteFrom]
          split
          · rename_i o n hrule
            obtain ⟨hpos, hle⟩ := fits _ _ _ _ hrule
            rw [List.length_cons] at hle
            obtain ⟨changed, hchanged⟩ : ∃ c, view.replaced o ⟨index, index + n⟩ = .ok c := by
              unfold replaced
              split
              · exact ⟨_, rfl⟩
              · obtain ⟨r, hr, _⟩ := @combinedSource_ok _ _ hv ⟨index, index + n⟩
                  (by simp only; omega) (by simp only; omega)
                exact ⟨_, by rw [hr]; rfl⟩
            obtain ⟨tail, htail⟩ := ih (n - 1)
            simp only [hchanged, htail, ok_bind]
            exact ⟨_, rfl⟩
          · have hlt : index < view.sourceByByte.length := by rw [hv.length]; omega
            obtain ⟨tail, htail⟩ := ih 0
            simp only [List.getElem?_eq_getElem hlt, orPanic, htail, ok_bind]
            exact ⟨_, rfl⟩

/-! ## Plain text -/

/-- A text that normalization leaves alone wherever it stands: ASCII, without a backslash, and not
beginning with a character that ends a line or is a blank. -/
structure Plain (t : Str) : Prop where
  ne : t ≠ []
  ascii : ∀ c ∈ t, isAscii c = true
  noBackslash : '\\' ∉ t
  head : ∀ c ∈ t.head?, c ∉ ['\n', '\r', ' ', '\t']

/-- The sources of a part that is left alone. -/
def unitSpans (start n : Nat) : List Span := (List.range n).map fun i => ⟨start + i, start + i + 1⟩

theorem isInvisibleControl_of_isAscii {c : Char} (h : isAscii c = true) :
    isInvisibleControl c = false := by
  simp only [isAscii, decide_eq_true_eq] at h
  simp only [isInvisibleControl, Bool.or_eq_false_iff, Bool.and_eq_false_iff, decide_eq_false_iff_not]
  omega

theorem canonicalizeFrom_append (nfkc : Char → Str) (sourceOf : Span → Fallible DetectorError Span)
    (start : Nat) (a b : Str) :
    canonicalizeFrom nfkc sourceOf start (a ++ b) = (do
      let x ← canonicalizeFrom nfkc sourceOf start a
      let y ← canonicalizeFrom nfkc sourceOf (start + len a) b
      .ok ⟨x.text ++ y.text, x.sourceByByte ++ y.sourceByByte⟩) := by
  induction a generalizing start with
  | nil =>
      simp only [List.nil_append, canonicalizeFrom, ok_bind, len_nil, Nat.add_zero]
      cases canonicalizeFrom nfkc sourceOf start b with
      | error e => rfl
      | ok v => rfl
  | cons c a ih =>
      simp only [List.cons_append, canonicalizeFrom, ih, len_cons, Nat.add_assoc]
      split
      · rfl
      · cases sourceOf ⟨start, start + c.utf8Size⟩ with
        | error e => rfl
        | ok source =>
            simp only [ok_bind]
            cases canonicalizeFrom nfkc sourceOf (start + c.utf8Size) a with
            | error e => rfl
            | ok x =>
                simp only [ok_bind]
                cases canonicalizeFrom nfkc sourceOf (start + (c.utf8Size + len a)) b with
                | error e => rfl
                | ok y => simp [ok_bind]

theorem canonicalizeFrom_ok (u : Unicode) (start : Nat) (s : Str) :
    ∃ view, canonicalizeFrom u.nfkc .ok start s = .ok view ∧
      view.text = (s.filter fun c => !isInvisibleControl c).flatMap u.nfkc ∧
      view.sourceByByte.length = len view.text := by
  induction s generalizing start with
  | nil => exact ⟨_, rfl, rfl, rfl⟩
  | cons c s ih =>
      obtain ⟨view, hview, htext, hlen⟩ := ih (start + c.utf8Size)
      simp only [canonicalizeFrom, hview, ok_bind]
      cases hc : isInvisibleControl c with
      | true => exact ⟨view, rfl, by simpa [hc] using htext, hlen⟩
      | false => exact ⟨_, rfl, by simp [hc, htext], by simp [hlen]⟩

/-- ASCII characters stay as they are, with the sources that they had. -/
theorem canonicalizeFrom_ascii (u : Unicode) {sourceOf : Span → Fallible DetectorError Span}
    {index start : Nat} {t : Str} (ht : ∀ c ∈ t, isAscii c = true) (hunit : ∀ i < t.length,
      sourceOf ⟨index + i, index + i + 1⟩ = .ok ⟨start + i, start + i + 1⟩) :
    canonicalizeFrom u.nfkc sourceOf index t = .ok ⟨t, unitSpans start t.length⟩ := by
  induction t generalizing index start with
  | nil => rfl
  | cons c t ih =>
      obtain ⟨hc, ht⟩ := List.forall_mem_cons.mp ht
      have hfirst : sourceOf ⟨index, index + 1⟩ = .ok ⟨start, start + 1⟩ := hunit 0 (by simp)
      have hrest := @ih (index + 1) (start + 1) ht fun i hi => by
        rw [Nat.add_assoc index, Nat.add_comm 1, Nat.add_assoc start, Nat.add_comm 1]
        exact hunit (i + 1) (by simpa using hi)
      simp only [canonicalizeFrom, isInvisibleControl_of_isAscii hc, Bool.false_eq_true, ↓reduceIte,
        utf8Size_of_isAscii hc, hfirst, hrest, ok_bind, u.nfkc_of_isAscii c hc, len_cons, len_nil]
      refine congrArg Except.ok (congrArg (ScanView.mk (c :: t)) ?_)
      simp only [unitSpans, List.length_cons, List.range_succ_eq_map, List.map_cons, List.map_map,
        List.replicate_succ, List.replicate_zero, List.singleton_append, Nat.add_zero,
        List.cons.injEq, true_and]
      refine List.map_congr_left fun i _ => ?_
      simp only [Function.comp_apply, Span.mk.injEq]
      omega

/-! ## Normalization -/

/-- The bytes at which a line continuation goes on. -/
def isContinuing (b : UInt8) : Bool := b = 0x0A || b = 0x0D || b = 0x20 || b = 0x09

theorem takeWhile_append_stop {p : UInt8 → Bool} {as bs : List UInt8}
    (hbs : ∀ b ∈ bs.head?, p b = false) : (as ++ bs).takeWhile p = as.takeWhile p := by
  induction as with
  | nil =>
      cases bs with
      | nil => rfl
      | cons b bs => exact List.takeWhile_cons_of_neg (by simp [hbs b rfl])
  | cons a as ih => simp only [List.cons_append, List.takeWhile_cons, ih]

theorem continuationRule_none {b : UInt8} (h : b ≠ 0x5C) {prev : Option UInt8} {bs : List UInt8} :
    continuationRule prev (b :: bs) = none := by
  unfold continuationRule
  split <;> simp_all

/-- A line continuation ends where the text goes on with another byte. -/
theorem continuationRule_append {prev prev' : Option UInt8} {as bs : List UInt8} (has : as ≠ [])
    (hbs : ∀ b ∈ bs.head?, isContinuing b = false) :
    continuationRule prev (as ++ bs) = continuationRule prev' as := by
  have htake : ∀ rest : List UInt8,
      (rest ++ bs).takeWhile (fun b => b = 0x20 || b = 0x09)
        = rest.takeWhile fun b => b = 0x20 || b = 0x09 := fun rest =>
    takeWhile_append_stop fun b hb => by
      have := hbs b hb
      simp only [isContinuing, Bool.or_eq_false_iff] at this
      simp [this]
  have hnot : ∀ b bs', bs = b :: bs' → b ≠ 0x0A ∧ b ≠ 0x0D := fun b bs' h => by
    have := hbs b (by rw [h]; rfl)
    simp only [isContinuing, Bool.or_eq_false_iff, decide_eq_false_iff_not] at this
    exact ⟨this.1.1.1, this.1.1.2⟩
  cases as with
  | nil => exact absurd rfl has
  | cons x as =>
      by_cases hx : x = 0x5C
      swap
      · rw [List.cons_append, continuationRule_none hx, continuationRule_none hx]
      subst hx
      rcases as with _ | ⟨y, as⟩
      · cases bs with
        | nil => simp [continuationRule]
        | cons b bs =>
            obtain ⟨h₁, h₂⟩ := hnot b bs rfl
            simp [continuationRule, h₁, h₂]
      by_cases hy : y = 0x0A
      · subst hy
        simp only [List.cons_append, continuationRule, htake]
      by_cases hy' : y = 0x0D
      · subst hy'
        cases as with
        | nil =>
            cases bs with
            | nil => simp [continuationRule]
            | cons b bs => simp [continuationRule, (hnot b bs rfl).1]
        | cons z as =>
            by_cases hz : z = 0x0A
            · subst hz
              simp only [List.cons_append, continuationRule, htake]
            · simp [continuationRule, hz]
      · simp [continuationRule, hy, hy']

theorem fits_continuationRule : continuationRule.Fits := by
  intro prev bs o n h
  unfold continuationRule at h
  have hle : ∀ rest : List UInt8,
      (rest.takeWhile fun b => b = 0x20 || b = 0x09).length ≤ rest.length := fun rest =>
    (List.takeWhile_sublist _).length_le
  split at h
  · rename_i rest
    cases h
    have := hle rest
    simp only [List.length_cons]; omega
  · rename_i rest
    cases h
    have := hle rest
    simp only [List.length_cons]; omega
  · cases h

theorem rewrittenBytes_continuationRule (prev : Option UInt8) (bs : List UInt8) :
    rewrittenBytes continuationRule 0 prev bs = rewrittenBytes continuationRule 0 none bs := by
  cases bs with
  | nil => rfl
  | cons b bs =>
      have h : continuationRule prev (b :: bs) = continuationRule none (b :: bs) := by
        simpa using @continuationRule_append prev none (b :: bs) [] (by simp) (by simp)
      simp only [rewrittenBytes, h]

/-- What a text normalizes to. -/
def NormalizesTo (u : Unicode) (source text : Str) : Prop :=
  ∃ view, normalize u.nfkc source = .ok view ∧ view.text = text

theorem normalizesTo_of_bytes (u : Unicode) {source text : Str} {start : Nat} {view : ScanView}
    (hview : canonicalizeFrom u.nfkc .ok start source = .ok view)
    (htext : bytes text = rewrittenBytes continuationRule 0 none (bytes view.text)) :
    NormalizesTo u source text := by
  obtain ⟨v, hv, hvt, _⟩ := canonicalizeFrom_ok u 0 source
  obtain ⟨w, hw, hwt, _⟩ := canonicalizeFrom_ok u start source
  rw [hview] at hw
  cases hw
  have hmaps : MapsTo source v := (safe_canonicalizeFrom_ok u.nfkc source).2 v hv
  obtain ⟨output, hout⟩ := @rewriteFrom_ok _ _ _ hmaps fits_continuationRule 0 0 none
    (bytes v.text) (by simp)
  have hbytes := rewriteFrom_bytes hout
  rw [hvt, ← hwt, ← htext] at hbytes
  refine ⟨⟨text, output.2.map Prod.snd⟩, ?_, rfl⟩
  simp only [normalize, hv, removeStructuralContinuations, rewriteBytes, hout, ok_bind, fromBytes,
    hbytes, fromUtf8_bytes]
  rw [if_neg]
  have := congrArg List.length hbytes
  simp only [List.length_map] at this ⊢
  omega

/-- The text `t` stands in the view after `a`, with these sources. -/
structure Shows (view : ScanView) (a t b : Str) (sources : List Span) : Prop where
  text : view.text = a ++ t ++ b
  sources : ∃ before after, view.sourceByByte = before ++ sources ++ after ∧
    before.length = len a ∧ sources.length = len t

theorem fromBytes_ok {bs : List UInt8} {mappings : List Span} (h : fromBytes bs mappings = .ok view) :
    bytes view.text = bs ∧ view.sourceByByte = mappings := by
  unfold fromBytes at h
  split at h
  · cases h
  · split at h
    · cases h
    · rename_i text htext
      cases h
      exact ⟨bytes_of_fromUtf8 htext, rfl⟩

theorem toNat_ofNat_of_isAscii {c : Char} (h : isAscii c = true) :
    (UInt8.ofNat c.toNat).toNat = c.toNat := by
  simp only [isAscii, decide_eq_true_eq] at h
  rw [UInt8.toNat_ofNat']
  omega

theorem Plain.head_bytes {t : Str} (ht : Plain t) (bs : List UInt8) :
    ∀ b ∈ (bytes t ++ bs).head?, isContinuing b = false := by
  cases t with
  | nil => exact absurd rfl ht.ne
  | cons c t =>
      have hc := ht.ascii c (by simp)
      have hnot := ht.head c rfl
      simp only [bytes_cons, utf8EncodeChar_of_isAscii hc, List.cons_append, List.nil_append,
        List.head?_cons, Option.mem_def, Option.some.injEq, forall_eq']
      by_contra hcont
      simp only [isContinuing, Bool.not_eq_false, Bool.or_eq_true, decide_eq_true_eq,
        ← UInt8.toNat_inj, toNat_ofNat_of_isAscii hc] at hcont
      refine hnot ?_
      rcases hcont with ((h | h) | h) | h
      · rw [show c = '\n' from Char.toNat_inj.mp h]; decide
      · rw [show c = '\r' from Char.toNat_inj.mp h]; decide
      · rw [show c = ' ' from Char.toNat_inj.mp h]; decide
      · rw [show c = '\t' from Char.toNat_inj.mp h]; decide

theorem Plain.passes {t : Str} (ht : Plain t) {b : UInt8} (hb : b ∈ bytes t) (prev : Option UInt8)
    (bs : List UInt8) : continuationRule prev (b :: bs) = none := by
  refine continuationRule_none fun h => ?_
  obtain ⟨c, hc, hbc⟩ := List.mem_flatMap.mp hb
  have hascii := ht.ascii c hc
  rw [utf8EncodeChar_of_isAscii hascii, List.mem_singleton] at hbc
  rw [hbc, ← UInt8.toNat_inj, toNat_ofNat_of_isAscii hascii] at h
  exact ht.noBackslash ((show c = '\\' from Char.toNat_inj.mp h) ▸ hc)

/-- Plain text is in the normalized view, byte by byte, between what normalizes around it. -/
theorem normalize_plain (u : Unicode) {p t q : Str} (ht : Plain t) {view : ScanView}
    (h : normalize u.nfkc (p ++ t ++ q) = .ok view) :
    ∃ a b, view.Shows a t b (unitSpans (len p) t.length) ∧ NormalizesTo u p a ∧
      NormalizesTo u q b := by
  obtain ⟨vp, hp, _, hpl⟩ := canonicalizeFrom_ok u 0 p
  obtain ⟨vq, hq, _, hql⟩ := canonicalizeFrom_ok u (len p + len t) q
  have hcanon : canonicalizeFrom u.nfkc .ok 0 (p ++ t ++ q) = .ok ⟨vp.text ++ t ++ vq.text,
      vp.sourceByByte ++ unitSpans (len p) t.length ++ vq.sourceByByte⟩ := by
    simp only [canonicalizeFrom_append, hp, ok_bind, Nat.zero_add,
      canonicalizeFrom_ascii u ht.ascii fun _ _ => rfl, len_append, hq]
  simp only [normalize, hcanon, ok_bind, removeStructuralContinuations, rewriteBytes, bind_ok_iff] at h
  obtain ⟨output, hout, hfrom⟩ := h
  have hsplit : bytes (vp.text ++ t ++ vq.text) = bytes vp.text ++ (bytes t ++ bytes vq.text) := by
    simp
  rw [hsplit] at hout
  -- the pass over the bytes before, of and after the plain part
  have hhead : ∀ b ∈ (bytes t ++ bytes vq.text).head?, isContinuing b = false := ht.head_bytes _
  have hrule : ∀ prev prev' as', as' ≠ [] →
      continuationRule prev (as' ++ (bytes t ++ bytes vq.text)) = continuationRule prev' as' :=
    fun _ _ _ has => continuationRule_append has hhead
  obtain ⟨x, y, hxy, hy, _, hx, _⟩ := rewriteFrom_append
    (fun prev as' o n has h => (fits_continuationRule prev as' o n
      ((hrule prev prev as' has).symm.trans h)).2)
    (Nat.zero_le _) hout
  have hx := hx fun prev as' has => hrule prev prev as' has
  obtain ⟨z, w, hzw, hw, hz, hmaps⟩ :=
    rewriteFrom_plain (fun prev b ts' hb => ht.passes hb prev ts') hy
  have hw := rewriteFrom_bytes hw
  rw [rewrittenBytes_continuationRule] at hw
  simp only [Nat.zero_add, List.append_assoc] at hmaps
  rw [show (bytes vp.text).length = vp.sourceByByte.length by rw [length_bytes, hpl],
    List.drop_left, length_bytes, len_of_isAscii ht.ascii] at hmaps
  have hunit : (unitSpans (len p) t.length).length = t.length := by simp [unitSpans]
  rw [List.take_append_of_le_length (by omega), List.take_of_length_le (by omega)] at hmaps
  -- the text splits as its bytes do
  obtain ⟨hview, hsources⟩ := fromBytes_ok hfrom
  rw [hxy, hzw, List.map_append, List.map_append, hz, ← List.append_assoc] at hview
  obtain ⟨a, b, htext, ha, hb⟩ := bytes_split_text ht.ascii ht.ne hview
  refine ⟨a, b, ⟨htext, x.map Prod.snd, w.2.map Prod.snd, ?_, ?_, ?_⟩, ?_, ?_⟩
  · rw [hsources, hxy, hzw, List.map_append, List.map_append, hmaps, ← List.append_assoc]
  · rw [← length_bytes, ha, List.length_map, List.length_map]
  · rw [hunit, len_of_isAscii ht.ascii]
  · exact normalizesTo_of_bytes u hp (by rw [ha, hx])
  · exact normalizesTo_of_bytes u hq (by rw [hb, hw])

/-- The source of a range spans the sources of its bytes. -/
theorem combinedSource_covers {span r : Span} (h : view.combinedSource span = .ok r) {k : Nat}
    (hstart : span.start ≤ k) (hstop : k < span.stop) :
    ∃ m, view.sourceByByte[k]? = some m ∧ r.start ≤ m.start ∧ m.stop ≤ r.stop := by
  unfold combinedSource at h
  split at h
  · cases h
  rename_i hbad
  simp only at h
  split at h
  swap
  · cases h
  rename_i start stop hmin hmax
  split at h
  · cases h
  cases h
  have hlt : k < view.sourceByByte.length := by omega
  have hmem : view.sourceByByte[k] ∈
      (view.sourceByByte.drop span.start).take (span.stop - span.start) := by
    refine List.mem_of_getElem? (i := k - span.start) ?_
    rw [List.getElem?_take_of_lt (by omega), List.getElem?_drop,
      show span.start + (k - span.start) = k by omega, List.getElem?_eq_getElem hlt]
  exact ⟨_, List.getElem?_eq_getElem hlt,
    (List.min?_eq_some_iff.mp hmin).2 _ (List.mem_map_of_mem hmem),
    (List.max?_eq_some_iff.mp hmax).2 _ (List.mem_map_of_mem hmem)⟩

theorem Shows.getElem {a t b : Str} {sources : List Span} (h : view.Shows a t b sources) {k : Nat}
    (hk : k < len t) : view.sourceByByte[len a + k]? = sources[k]? := by
  obtain ⟨before, after, hs, hb, hl⟩ := h.sources
  rw [hs, List.append_assoc, List.getElem?_append_right (by omega), hb,
    Nat.add_sub_cancel_left, List.getElem?_append_left (by omega)]

theorem combinedSource_bounds {span r : Span} (h : view.combinedSource span = .ok r) :
    span.start < span.stop ∧ span.stop ≤ view.sourceByByte.length := by
  unfold combinedSource at h
  split at h
  · cases h
  · omega

theorem getElem?_unitSpans {start n k : Nat} (hk : k < n) :
    (unitSpans start n)[k]? = some ⟨start + k, start + k + 1⟩ := by
  rw [unitSpans, List.getElem?_map, List.getElem?_range hk, Option.map_some]

/-- In a part that was left alone, a range stands for the range at the same place. -/
theorem Shows.combinedSource_unit {a t b : Str} {start : Nat}
    (hshows : view.Shows a t b (unitSpans start (len t))) {i j : Nat} (hlt : i < j) (hle : j ≤ len t)
    {r : Span} (h : view.combinedSource ⟨len a + i, len a + j⟩ = .ok r) :
    r = ⟨start + i, start + j⟩ := by
  have hget : ∀ k, k < len t → view.sourceByByte[len a + k]? = some ⟨start + k, start + k + 1⟩ :=
    fun k hk => by rw [hshows.getElem hk, getElem?_unitSpans hk]
  have hwithin := @combinedSource_within _ _ _ h (start + i) (start + j) fun k m h₁ h₂ hm => by
    simp only at h₁ h₂
    have hk := hget (k - len a) (by omega)
    rw [Nat.add_sub_cancel' (by omega), hm] at hk
    cases hk
    simp only
    omega
  obtain ⟨m, hm, hfirst, _⟩ := @combinedSource_covers _ _ _ h (len a + i) (Nat.le_refl _)
    (by simp only; omega)
  obtain ⟨n, hn, _, hlast⟩ := @combinedSource_covers _ _ _ h (len a + (j - 1)) (by simp only; omega)
    (by simp only; omega)
  rw [hget i (by omega)] at hm
  rw [hget (j - 1) (by omega)] at hn
  cases hm
  cases hn
  obtain ⟨rstart, rstop⟩ := r
  simp only at hwithin hfirst hlast
  simp only [Span.mk.injEq]
  omega

/-- A part of the part. -/
theorem Shows.part {a t₁ t t₂ b : Str} {sources : List Span}
    (h : view.Shows a (t₁ ++ t ++ t₂) b sources) :
    ∃ sources', view.Shows (a ++ t₁) t (t₂ ++ b) sources' ∧ ∀ m ∈ sources', m ∈ sources := by
  obtain ⟨before, after, hs, hb, hl⟩ := h.sources
  rw [len_append, len_append] at hl
  refine ⟨(sources.drop (len t₁)).take (len t), ⟨by rw [h.text]; simp, before ++ sources.take (len t₁),
    (sources.drop (len t₁)).drop (len t) ++ after, ?_, ?_, ?_⟩, fun m hm =>
    List.mem_of_mem_drop (List.mem_of_mem_take hm)⟩
  · rw [hs]
    simp only [List.append_assoc]
    rw [← List.append_assoc (List.take (len t) _), List.take_append_drop,
      ← List.append_assoc (List.take (len t₁) _), List.take_append_drop]
  · rw [List.length_append, List.length_take, hb, len_append]; omega
  · rw [List.length_take, List.length_drop]; omega

/-- A range that overlaps the part has a source that overlaps the part's. -/
theorem Shows.overlaps {a t b : Str} {sources : List Span} (hshows : view.Shows a t b sources)
    {r : Span} (hr : ∀ m ∈ sources, r.start ≤ m.start ∧ m.start < m.stop ∧ m.stop ≤ r.stop)
    {span s : Span} (hs : view.combinedSource span = .ok s) (h₁ : span.start < len a + len t)
    (h₂ : len a < span.stop) (hne : span.start < span.stop) (ht : 0 < len t) :
    s.start < r.stop ∧ r.start < s.stop := by
  obtain ⟨k, hk₁, hk₂, hk₃⟩ : ∃ k, k < len t ∧ span.start ≤ len a + k ∧ len a + k < span.stop :=
    ⟨span.start - len a, by omega, by omega, by omega⟩
  obtain ⟨m, hm, hstart, hstop⟩ := combinedSource_covers hs hk₂ hk₃
  rw [hshows.getElem hk₁] at hm
  obtain ⟨h₁, h₂, h₃⟩ := hr m (List.mem_of_getElem? hm)
  omega

/-! ## The views of a scan -/

theorem composeFrom_prefix (u : Unicode) (bound : Nat) {fuel : Nat} {queue : List (ScanView × Nat)}
    {seen views l : List ScanView} (h : composeFrom u bound fuel queue seen views = .ok l) :
    views <+: l := by
  induction fuel generalizing queue seen views with
  | zero =>
      cases queue with
      | nil => cases h; exact List.prefix_refl _
      | cons q queue => cases h
  | succ fuel ih =>
      cases queue with
      | nil => cases h; exact List.prefix_refl _
      | cons q queue =>
          obtain ⟨view, depth⟩ := q
          have hpre := List.prefix_append views [view]
          simp only [composeFrom] at h
          split at h
          · exact ih h
          split at h
          · cases h
          split at h
          · cases h
          split at h
          · exact hpre.trans (ih h)
          · obtain ⟨decoded, _, h⟩ := bind_ok_iff.mp h
            exact hpre.trans (ih h)

theorem mem_composedViews (u : Unicode) {root : ScanView} {l : List ScanView}
    (h : composedViews u root = .ok l) : root ∈ l := by
  have hpre : [root] <+: l := by
    simp only [composedViews, composeFrom, List.not_mem_nil, ↓reduceIte, List.nil_append] at h
    split at h
    · cases h
    split at h
    · cases h
    split at h
    · cases h; exact List.prefix_refl _
    · obtain ⟨decoded, _, h⟩ := bind_ok_iff.mp h
      exact composeFrom_prefix u _ h
  exact hpre.subset (by simp)

/-- Every regular view is scanned, and so is its collapsed form. -/
theorem mem_withCollapsed {l : List ScanView} {views out : List (ScanView × Bool)}
    (h : withCollapsed l views = .ok out) :
    views ⊆ out ∧ ∀ view ∈ l, (view, false) ∈ out ∧ ∃ collapsed,
      view.collapseCandidateSeparators = .ok collapsed ∧ ∀ v ∈ collapsed, (v, true) ∈ out := by
  induction l generalizing views with
  | nil => cases h; exact ⟨List.Subset.refl _, by simp⟩
  | cons view l ih =>
      simp only [withCollapsed] at h
      split at h
      · cases h
      obtain ⟨collapsed, hc, h⟩ := bind_ok_iff.mp h
      cases collapsed with
      | none =>
          obtain ⟨hsub, hl⟩ := ih h
          exact ⟨fun v hv => hsub (List.mem_append_left _ hv),
            List.forall_mem_cons.mpr ⟨⟨hsub (by simp), none, hc, by simp⟩, hl⟩⟩
      | some v =>
          simp only at h
          split at h
          · cases h
          obtain ⟨hsub, hl⟩ := ih h
          refine ⟨fun v hv => hsub (List.mem_append_left _ hv),
            List.forall_mem_cons.mpr ⟨⟨hsub (by simp), some v, hc, fun w hw => ?_⟩, hl⟩⟩
          cases hw
          exact hsub (by simp)

end ScanView

theorem mem_scanViews (u : Unicode) {source : Str} {views : List (ScanView × Bool)}
    (h : scanViews u source = .ok views) :
    ∃ root, ScanView.normalize u.nfkc source = .ok root ∧ (root, false) ∈ views ∧ ∃ collapsed,
      root.collapseCandidateSeparators = .ok collapsed ∧ ∀ v ∈ collapsed, (v, true) ∈ views := by
  simp only [scanViews, bind_ok_iff] at h
  obtain ⟨root, hroot, l, hl, hviews⟩ := h
  exact ⟨root, hroot, (ScanView.mem_withCollapsed hviews).2 root (ScanView.mem_composedViews u hl)⟩

/-! ## The findings of a scan -/

/-- A finding on a view is a finding of the scan. -/
theorem mem_scan (u : Unicode) {scanner : Scanner} {source : Str} {found : List Finding}
    (h : scanner.scan u source = .ok found) :
    ∃ views, scanViews u source = .ok views ∧ ∀ view ∈ views, ∃ fs,
      scanView u scanner view = .ok fs ∧ ∀ f ∈ fs, ∃ g ∈ found, sameFinding f g = true := by
  simp only [Scanner.scan, bind_ok_iff, Except.ok.injEq] at h
  obtain ⟨views, hviews, all, hall, rfl⟩ := h
  refine ⟨views, hviews, fun view hview => ?_⟩
  obtain ⟨fs, hfs, hsub⟩ := mem_gather hall hview
  refine ⟨fs, hfs, fun f hf => ?_⟩
  obtain ⟨g, hg, hsame⟩ := @exists_mem_dedupBy _ sameFinding _ _ (mem_sortBy.mpr (hsub f hf))
  refine ⟨g, hg, ?_⟩
  rcases hsame with rfl | hsame
  · simp [sameFinding]
  · exact hsame

/-- Every match of a pattern on a view it looks at is a finding. -/
theorem scanView_pattern (u : Unicode) {scanner : Scanner} {view : ScanView} {secret : Bool}
    {fs : List Finding} (h : scanView u scanner (view, secret) = .ok fs) {pattern : PatternDetector}
    (hp : pattern ∈ patternDetectors u)
    (hs : secret = false ∨ pattern.secretOnly = true ∨ pattern.dataClass = .tokenNamespace)
    {m : Match} (hm : m ∈ Regex.findIter pattern.regex view.text) :
    ∃ f ∈ fs, f.dataClass = pattern.dataClass ∧ view.combinedSource m.range = .ok f.sourceSpan := by
  have hmem : pattern ∈ (patternDetectors u).filter fun pattern =>
      !(secret && !pattern.secretOnly && pattern.dataClass ≠ .tokenNamespace) := by
    refine List.mem_filter.mpr ⟨hp, ?_⟩
    rcases hs with hs | hs | hs
    · simp [hs]
    · simp [hs]
    · simp [hs]
  simp only [scanView, bind_ok_iff] at h
  obtain ⟨patterns, hpatterns, keys, _, assignments, _, h⟩ := h
  obtain ⟨bs, hbs, hsub⟩ := mem_gather hpatterns hmem
  obtain ⟨cs, hcs, hsub'⟩ := mem_gather hbs hm
  simp only [ScanView.finding, bind_ok_iff, Except.ok.injEq] at hcs
  obtain ⟨f, ⟨r, hr, rfl⟩, rfl⟩ := hcs
  refine ⟨⟨pattern.dataClass, pattern.detector, pattern.confidence, r⟩, ?_, rfl, hr⟩
  have hin := hsub _ (hsub' _ (List.mem_singleton_self _))
  split at h
  · cases h
    simp [hin]
  · simp only [bind_ok_iff, Except.ok.injEq] at h
    obtain ⟨_, _, _, _, _, _, _, _, rfl⟩ := h
    simp [hin]

theorem finding_dataClass {view : ScanView} {span : Span} {c : DataClass} {d : DetectorId}
    {k : Confidence} {f : Finding} (h : view.finding span c d k = .ok f) : f.dataClass = c := by
  simp only [ScanView.finding, bind_ok_iff, Except.ok.injEq] at h
  obtain ⟨_, _, rfl⟩ := h
  rfl

/-- A detector that succeeds gives findings of the class only. -/
def GivesOnly (c : DataClass) (detected : Fallible DetectorError (List Finding)) : Prop :=
  ∀ fs, detected = .ok fs → ∀ f ∈ fs, f.dataClass = c

section GivesOnly

variable {c : DataClass} {α : Type}

theorem givesOnly_nil : GivesOnly c (.ok []) := by
  rintro _ ⟨⟩
  simp

theorem givesOnly_finding (view : ScanView) (span : Span) (d : DetectorId) (k : Confidence) :
    GivesOnly c (do
      let f ← view.finding span c d k
      .ok [f]) := by
  intro fs h f hf
  obtain ⟨g, hg, h⟩ := bind_ok_iff.mp h
  cases h
  rw [List.mem_singleton.mp hf]
  exact finding_dataClass hg

theorem GivesOnly.ite {p : Prop} [Decidable p] {x y : Fallible DetectorError (List Finding)}
    (hx : GivesOnly c x) (hy : GivesOnly c y) : GivesOnly c (if p then x else y) := by
  split
  · exact hx
  · exact hy

theorem GivesOnly.bind {x : Fallible DetectorError α} {f : α → Fallible DetectorError (List Finding)}
    (hf : ∀ a, GivesOnly c (f a)) : GivesOnly c (x >>= f) := by
  intro fs h
  obtain ⟨a, _, h⟩ := bind_ok_iff.mp h
  exact hf a fs h

theorem GivesOnly.gather {f : α → Fallible DetectorError (List Finding)} {l : List α}
    (hf : ∀ a ∈ l, GivesOnly c (f a)) : GivesOnly c (gather f l) := by
  intro fs h g hg
  obtain ⟨a, ha, bs, hbs, hg⟩ := mem_of_gather h hg
  exact hf a ha bs hbs g hg

theorem givesOnly_scanPattern (p : PatternDetector) (view : ScanView) :
    GivesOnly p.dataClass (scanPattern p view) :=
  .gather fun _ _ => givesOnly_finding view _ _ _

theorem givesOnly_scanPrivateIpv4 (view : ScanView) :
    GivesOnly .privateIpv4 (scanPrivateIpv4 view) :=
  .gather fun _ _ => .ite (givesOnly_finding view _ _ _) givesOnly_nil

theorem givesOnly_scanPhone (view : ScanView) : GivesOnly .phone (scanPhone view) :=
  .gather fun _ _ => .bind fun _ => .ite (givesOnly_finding view _ _ _) givesOnly_nil

theorem givesOnly_scanSuffixAt (u : Unicode) (view : ScanView) (suffix : Str) (start : Nat) :
    GivesOnly .internalHostname (scanSuffixAt u view suffix start) :=
  .bind fun _ => .ite givesOnly_nil
    (.bind fun _ => .ite (givesOnly_finding view _ _ _) givesOnly_nil)

theorem givesOnly_scanTermAt (u : Unicode) (view : ScanView) (term : Str) (start : Nat) :
    GivesOnly .customTerm (scanTermAt u view term start) :=
  .bind fun _ => .ite (givesOnly_finding view _ _ _) givesOnly_nil

theorem givesOnly_scanHomeAt (view : ScanView) (start : Nat) :
    GivesOnly .homePath (scanHomeAt view start) :=
  .bind fun _ => givesOnly_finding view _ _ _

end GivesOnly

/-- The findings of a view: those of the patterns, of the private keys and of the assignments, and
others that are of no hard-block class. -/
theorem scanView_parts (u : Unicode) {scanner : Scanner} {view : ScanView} {secret : Bool}
    {fs : List Finding} (h : scanView u scanner (view, secret) = .ok fs) :
    ∃ patterns keys assignments,
      gather (scanPattern · view) ((patternDetectors u).filter fun pattern =>
        !(secret && !pattern.secretOnly && pattern.dataClass ≠ .tokenNamespace)) = .ok patterns ∧
      scanPrivateKeys view = .ok keys ∧ scanEnvAssignments view = .ok assignments ∧
      ∀ f ∈ fs, f ∈ patterns ∨ f ∈ keys ∨ f ∈ assignments ∨ f.dataClass.hardBlock = false := by
  simp only [scanView, bind_ok_iff] at h
  obtain ⟨patterns, hpatterns, keys, hkeys, assignments, hassignments, h⟩ := h
  refine ⟨patterns, keys, assignments, hpatterns, hkeys, hassignments, fun f hf => ?_⟩
  have hsecret : f ∈ patterns ++ keys ++ assignments →
      f ∈ patterns ∨ f ∈ keys ∨ f ∈ assignments ∨ f.dataClass.hardBlock = false := by
    simp only [List.mem_append]
    rintro ((h | h) | h)
    · exact .inl h
    · exact .inr (.inl h)
    · exact .inr (.inr (.inl h))
  have hsoft : ∀ {c : DataClass} {detected : Fallible DetectorError (List Finding)}
      {gs : List Finding}, GivesOnly c detected → detected = .ok gs → f ∈ gs →
      c.hardBlock = false →
      f ∈ patterns ∨ f ∈ keys ∨ f ∈ assignments ∨ f.dataClass.hardBlock = false := by
    intro c detected gs hgives hgs hf hc
    rw [hgives gs hgs f hf]
    exact .inr (.inr (.inr hc))
  cases secret with
  | true =>
      cases h
      exact hsecret hf
  | false =>
      simp only [Bool.false_eq_true, ↓reduceIte, bind_ok_iff, Except.ok.injEq] at h
      obtain ⟨emails, hemails, addresses, haddresses, phones, hphones, configured, hconfigured, rfl⟩ := h
      simp only [scanConfigured, bind_ok_iff, Except.ok.injEq] at hconfigured
      obtain ⟨hostnames, hhostnames, terms, hterms, paths, hpaths, rfl⟩ := hconfigured
      simp only [List.mem_append] at hf
      rcases hf with (((hf | hf) | hf) | hf) | ((hf | hf) | hf)
      · exact hsecret (by simpa only [List.mem_append] using hf)
      · exact hsoft (givesOnly_scanPattern _ view) hemails hf rfl
      · exact hsoft (givesOnly_scanPrivateIpv4 view) haddresses hf rfl
      · exact hsoft (givesOnly_scanPhone view) hphones hf rfl
      · exact hsoft (.gather fun _ _ => .gather fun _ _ => givesOnly_scanSuffixAt u view _ _)
          hhostnames hf rfl
      · exact hsoft (.gather fun _ _ => .gather fun _ _ => givesOnly_scanTermAt u view _ _)
          hterms hf rfl
      · exact hsoft (.gather fun _ _ => .gather fun _ _ => givesOnly_scanHomeAt view _) hpaths hf rfl

/-- A finding of a hard-block class comes from a match of a pattern, a marker of a private key or an
assignment. -/
theorem scanView_hardBlock (u : Unicode) {scanner : Scanner} {view : ScanView} {secret : Bool}
    {fs : List Finding} (h : scanView u scanner (view, secret) = .ok fs) {f : Finding} (hf : f ∈ fs)
    (hb : f.dataClass.hardBlock = true) :
    (∃ p ∈ patternDetectors u, ∃ m, m ∈ Regex.findIter p.regex view.text) ∨
      findStr beginMarker view.text ≠ none ∨ ∃ m, m ∈ Regex.findIter envAssignmentPattern view.text := by
  obtain ⟨patterns, keys, assignments, hpatterns, hkeys, hassignments, hparts⟩ := scanView_parts u h
  rcases hparts f hf with hf | hf | hf | hf
  · obtain ⟨p, hp, bs, hbs, hf⟩ := mem_of_gather hpatterns hf
    obtain ⟨m, hm, _⟩ := mem_of_gather hbs hf
    exact .inl ⟨p, (List.mem_filter.mp hp).1, m, hm⟩
  · refine .inr (.inl fun hn => ?_)
    have hslice : sliceFrom? view.text 0 = some view.text := by
      rw [sliceFrom?, show splitAt? view.text 0 = some ([], view.text) from splitAt?_append [] _]
      rfl
    simp only [scanPrivateKeys, scanPrivateKeysFrom, hslice, orPanic, ok_bind, hn,
      Except.ok.injEq] at hkeys
    rw [← hkeys] at hf
    cases hf
  · obtain ⟨m, hm, _⟩ := mem_of_gather hassignments hf
    exact .inr (.inr ⟨m, hm⟩)
  · rw [hb] at hf
    cases hf

/-- The finding of a match that overlaps a part of the view overlaps the source of the part. -/
theorem ScanView.Shows.match_overlaps {view : ScanView} {a t b : Str} {sources : List Span}
    (hshows : view.Shows a t b sources) {r : Span}
    (hr : ∀ m ∈ sources, r.start ≤ m.start ∧ m.start < m.stop ∧ m.stop ≤ r.stop) {regex : Regex}
    (hne : Regex.NonEmpty regex) (hd : Regex.Derives regex a.reverse t b) :
    ∃ m ∈ Regex.findIter regex view.text, ∀ s, view.combinedSource m.range = .ok s →
      s.start < r.stop ∧ r.start < s.stop := by
  obtain ⟨m, hm, h₁, h₂⟩ := Regex.findIter_range_overlaps hne hd
  rw [← hshows.text] at hm
  obtain ⟨_, hder⟩ := Regex.mem_findIter hm
  have hpos : 0 < len m.text := len_pos.mpr (hne _ _ _ hder)
  exact ⟨m, hm, fun s hs => hshows.overlaps hr hs h₁ h₂ (by simp only [Part.range]; omega)
    (len_pos.mpr (hne _ _ _ hd))⟩

theorem ScanView.unitSpans_within {start n : Nat} {m : Span}
    (hm : m ∈ ScanView.unitSpans start n) :
    start ≤ m.start ∧ m.start < m.stop ∧ m.stop ≤ start + n := by
  obtain ⟨i, hi, rfl⟩ := List.mem_map.mp hm
  rw [List.mem_range] at hi
  simp only
  omega

/-- A pattern that matches a plain part of the source, also in what the text around it normalizes to,
is found there. -/
theorem scan_plain (u : Unicode) {scanner : Scanner} {p t q : Str} (ht : ScanView.Plain t)
    {found : List Finding} (h : scanner.scan u (p ++ t ++ q) = .ok found)
    {pattern : PatternDetector} (hp : pattern ∈ patternDetectors u)
    (hd : ∀ a b, ScanView.NormalizesTo u p a → ScanView.NormalizesTo u q b →
      Regex.Derives pattern.regex a.reverse t b) :
    ∃ f ∈ found, f.dataClass = pattern.dataClass ∧ f.sourceSpan.start < len p + len t ∧
      len p < f.sourceSpan.stop := by
  obtain ⟨views, hviews, hscan⟩ := mem_scan u h
  obtain ⟨root, hroot, hmem, _⟩ := mem_scanViews u hviews
  obtain ⟨a, b, hshows, ha, hb⟩ := ScanView.normalize_plain u ht hroot
  obtain ⟨m, hm, hover⟩ := hshows.match_overlaps (r := ⟨len p, len p + t.length⟩)
    (fun _ hm => ScanView.unitSpans_within hm)
    (Regex.nonEmpty_of_minLength (minLength_pattern u pattern hp)) (hd a b ha hb)
  obtain ⟨fs, hfs, hsame⟩ := hscan _ hmem
  obtain ⟨f, hf, hclass, hsource⟩ := scanView_pattern u hfs hp (.inl rfl) hm
  obtain ⟨g, hg, hfg⟩ := hsame f hf
  simp only [sameFinding, Bool.and_eq_true, decide_eq_true_eq] at hfg
  rw [len_of_isAscii ht.ascii]
  exact ⟨g, hg, hfg.1.2 ▸ hclass, hfg.1.1 ▸ hover _ hsource⟩

end AgentVeil
