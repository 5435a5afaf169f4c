import AgentVeil.Detector.Lemmas.Segments

/-!
# Dots between token bytes

The collapsed form of a view has no dot of a dotted text: what is left of it stands there in one
piece, and each of its bytes maps into the dotted text.
-/

namespace AgentVeil

open Rust Rust.Regex

/-- `t` is `s` with a dot inserted between some adjacent pairs of token characters. -/
inductive Dotted : Str → Str → Prop where
  | nil : Dotted [] []
  | cons {c s t} : Dotted s t → Dotted (c :: s) (c :: t)
  | dot {c d s t} (left : isTokenCharacter c = true) (right : isTokenCharacter d = true) :
      Dotted (d :: s) (d :: t) → Dotted (c :: d :: s) (c :: '.' :: d :: t)

/-- Token characters, and single dots between them. -/
def Separated : Option Char → Str → Prop
  | _, [] => True
  | prev, c :: t =>
      (isTokenCharacter c = true ∨
        c = '.' ∧ prev.any isTokenCharacter = true ∧ t.head?.any isTokenCharacter = true) ∧
      Separated (some c) t

/-- The text without its dots. -/
def undotted (t : Str) : Str := t.filter (· ≠ '.')

theorem isTokenCharacter_isAscii {c : Char} (h : isTokenCharacter c = true) : isAscii c = true := by
  simp only [isTokenCharacter, isAsciiAlphanumeric, isAsciiDigit, isAsciiUppercase,
    isAsciiLowercase, Bool.or_eq_true, Bool.and_eq_true, decide_eq_true_eq] at h
  rw [isAscii, decide_eq_true_eq]
  rcases h with ((((_ | _) | _) | rfl) | rfl)
  · omega
  · omega
  · omega
  · decide
  · decide

theorem isTokenByte_ofNat {c : Char} (hc : isAscii c = true) :
    isTokenByte (UInt8.ofNat c.toNat) = isTokenCharacter c := by
  have h₁ : (c = '_') = (c.toNat = 95) := by
    rw [← Char.toNat_inj]; rfl
  have h₂ : (c = '-') = (c.toNat = 45) := by
    rw [← Char.toNat_inj]; rfl
  simp only [isTokenByte, ScanView.toNat_ofNat_of_isAscii hc, isTokenCharacter, isAsciiAlphanumeric,
    isAsciiDigit, isAsciiUppercase, isAsciiLowercase, h₁, h₂]

theorem Separated.chars {prev : Option Char} {t : Str} (h : Separated prev t) :
    ∀ c ∈ t, isTokenCharacter c = true ∨ c = '.' := by
  induction t generalizing prev with
  | nil => simp
  | cons c t ih => exact List.forall_mem_cons.mpr ⟨h.1.imp id And.left, ih h.2⟩

theorem Separated.isAscii {prev : Option Char} {t : Str} (h : Separated prev t) :
    ∀ c ∈ t, isAscii c = true := by
  induction t generalizing prev with
  | nil => simp
  | cons c t ih =>
      refine List.forall_mem_cons.mpr ⟨?_, ih h.2⟩
      rcases h.1 with hc | ⟨rfl, _⟩
      · exact isTokenCharacter_isAscii hc
      · decide

namespace ScanView

variable {view : ScanView}

theorem separatorRule_length {prev : Option UInt8} {bs o : List UInt8} {n : Nat}
    (h : separatorRule prev bs = some (o, n)) : o = [] ∧ n = 1 := by
  unfold separatorRule at h
  split at h
  · split at h
    · cases h; exact ⟨rfl, rfl⟩
    · cases h
  · cases h

theorem separatorRule_none {b : UInt8} (h : b ≠ 0x2E) (prev : Option UInt8) (bs : List UInt8) :
    separatorRule prev (b :: bs) = none := by
  unfold separatorRule
  split <;> simp_all

/-- Over a dotted text the pass drops the dots and nothing else. -/
theorem rewriteFrom_separated {index : Nat} {prev : Option Char} {prevByte : Option UInt8} {t : Str}
    {bs : List UInt8} {output : Bool × List (UInt8 × Span)} (ht : Separated prev t)
    (hprev : ∀ c ∈ prev, isAscii c = true ∧ prevByte = some (UInt8.ofNat c.toNat))
    (h : view.rewriteFrom separatorRule 0 prevByte index (bytes t ++ bs) = .ok output) :
    ∃ x y, output.2 = x ++ y ∧ (bs = [] → y = []) ∧ x.map Prod.fst = bytes (undotted t) ∧
      (∀ m ∈ x.map Prod.snd, ∃ k < t.length, view.sourceByByte[index + k]? = some m) ∧
      ('.' ∈ t → output.1 = true) := by
  induction t generalizing index prev prevByte output with
  | nil =>
      refine ⟨[], output.2, rfl, ?_, rfl, by simp, by simp⟩
      rintro rfl
      cases h
      rfl
  | cons c t ih =>
      have hc := ht.isAscii c (by simp)
      have hrest : ∀ m : Span, (∃ k < t.length, view.sourceByByte[index + 1 + k]? = some m) →
          ∃ k < (c :: t).length, view.sourceByByte[index + k]? = some m := fun m ⟨k, hk, hm⟩ =>
        ⟨k + 1, by simpa using hk, by rw [← hm, show index + (k + 1) = index + 1 + k by omega]⟩
      rw [bytes_cons, utf8EncodeChar_of_isAscii hc, List.append_assoc, List.singleton_append] at h
      rcases ht.1 with htok | ⟨rfl, hleft, hright⟩
      · have hne : c ≠ '.' := fun h => by subst h; cases htok
        have hbyte : UInt8.ofNat c.toNat ≠ 0x2E := fun h => hne <| by
          rw [← UInt8.toNat_inj, toNat_ofNat_of_isAscii hc] at h
          exact Char.toNat_inj.mp h
        simp only [rewriteFrom, separatorRule_none hbyte, bind_ok_iff, orPanic_ok_iff,
          Except.ok.injEq] at h
        obtain ⟨source, hsource, tail, htail, rfl⟩ := h
        obtain ⟨x, y, hout, hy, hx, hm, hflag⟩ := ih ht.2 (by simp [hc]) htail
        refine ⟨(_, source) :: x, y, by rw [hout]; rfl, hy, ?_, ?_, fun h => ?_⟩
        · simp [undotted, hne, hx, utf8EncodeChar_of_isAscii hc]
        · rw [List.map_cons]
          exact List.forall_mem_cons.mpr ⟨⟨0, by simp, hsource⟩, fun m h => hrest m (hm m h)⟩
        · exact hflag (by simpa [Ne.symm hne] using h)
      · obtain ⟨p, rfl⟩ : ∃ p, prev = some p := by cases prev with
          | none => cases hleft
          | some p => exact ⟨p, rfl⟩
        obtain ⟨hp, rfl⟩ := hprev p rfl
        cases t with
        | nil => cases hright
        | cons d t =>
            have hd := ht.2.isAscii d (by simp)
            have hrule : separatorRule (some (UInt8.ofNat p.toNat))
                (UInt8.ofNat ('.').toNat :: (bytes (d :: t) ++ bs)) = some ([], 1) := by
              rw [bytes_cons, utf8EncodeChar_of_isAscii hd]
              simp only [Option.any_some, List.head?_cons] at hleft hright
              simp [separatorRule, isTokenByte_ofNat hp, isTokenByte_ofNat hd, hleft, hright]
            simp only [rewriteFrom, hrule, replaced, ↓reduceIte, ok_bind, bind_ok_iff,
              Except.ok.injEq] at h
            obtain ⟨tail, htail, rfl⟩ := h
            obtain ⟨x, y, hout, hy, hx, hm, _⟩ := ih ht.2 (by simp [hc]) htail
            exact ⟨x, y, hout, hy, by simpa [undotted] using hx, fun m h => hrest m (hm m h),
              fun _ => rfl⟩

/-- In the collapsed form of a view that shows a dotted text, what is left of the text stands in one
piece, with sources in the text. -/
theorem collapse_shows {a t b : Str} {sources : List Span} (hshows : view.Shows a t b sources)
    (ht : Separated none t) (hdot : '.' ∈ t) {collapsed : Option ScanView}
    (h : view.collapseCandidateSeparators = .ok collapsed) (hne : undotted t ≠ []) :
    ∃ v a' b' sources', collapsed = some v ∧ v.Shows a' (undotted t) b' sources' ∧
      ∀ m ∈ sources', m ∈ sources := by
  simp only [collapseCandidateSeparators, rewriteBytes, bind_ok_iff] at h
  obtain ⟨output, hout, h⟩ := h
  rw [hshows.text, bytes_append, bytes_append, List.append_assoc] at hout
  obtain ⟨x, y, hxy, hy, hflag, _⟩ := rewriteFrom_append
    (fun _ as' _ _ has h => by
      rw [(separatorRule_length h).2]
      exact List.length_pos_iff.mpr has)
    (Nat.zero_le _) hout
  obtain ⟨z, w, hzw, _, hz, hm, hchanged⟩ := rewriteFrom_separated ht (by simp) hy
  rw [hflag (hchanged hdot), if_neg (by simp)] at h
  obtain ⟨v, hv, rfl⟩ : ∃ v, fromBytes (output.2.map Prod.fst) (output.2.map Prod.snd) = .ok v ∧
      collapsed = some v := by
    cases hf : fromBytes (output.2.map Prod.fst) (output.2.map Prod.snd) with
    | error e => rw [hf] at h; cases h
    | ok v => rw [hf] at h; cases h; exact ⟨v, rfl, rfl⟩
  obtain ⟨htext, hsources⟩ := fromBytes_ok hv
  rw [hxy, hzw, List.map_append, List.map_append, hz, ← List.append_assoc] at htext
  have hascii : ∀ c ∈ undotted t, isAscii c = true := fun c hc =>
    ht.isAscii c (List.mem_filter.mp hc).1
  obtain ⟨a', b', htext, ha', _⟩ := bytes_split_text hascii hne htext
  refine ⟨v, a', b', z.map Prod.snd, rfl, ⟨htext, x.map Prod.snd, w.map Prod.snd, ?_, ?_, ?_⟩, ?_⟩
  · rw [hsources, hxy, hzw, List.map_append, List.map_append, ← List.append_assoc]
  · rw [← length_bytes, ha', List.length_map, List.length_map]
  · rw [← length_bytes, ← hz, List.length_map, List.length_map]
  · intro m hmem
    obtain ⟨k, hk, hm⟩ := hm m hmem
    rw [Nat.zero_add, length_bytes,
      hshows.getElem (by rw [len_of_isAscii ht.isAscii]; exact hk)] at hm
    exact List.mem_of_getElem? hm

end ScanView

/-! ## The views of a dotted text -/

theorem fits_separatorRule : separatorRule.Fits := by
  intro prev bs o n h
  obtain ⟨_, rfl⟩ := ScanView.separatorRule_length h
  cases bs with
  | nil => cases prev <;> cases h
  | cons b bs => simp

theorem rewrittenBytes_plain {rule : ByteRule} {prev : Option UInt8} {bs : List UInt8}
    (plain : ∀ prev b bs', b ∈ bs → rule prev (b :: bs') = none) :
    rewrittenBytes rule 0 prev bs = bs := by
  induction bs generalizing prev with
  | nil => rfl
  | cons b bs ih =>
      simp only [rewrittenBytes, plain prev b bs (by simp),
        ih fun prev b' bs' hb => plain prev b' bs' (List.mem_cons_of_mem _ hb)]

/-- The bytes of a dotted text are no escapes. -/
theorem Separated.bytes_ne {t : Str} {prev : Option Char} (ht : Separated prev t) :
    ∀ b ∈ bytes t, b ≠ 0x5C ∧ b ≠ 0x25 := by
  intro b hb
  obtain ⟨c, hc, hbc⟩ := List.mem_flatMap.mp hb
  have hascii := ht.isAscii c hc
  rw [utf8EncodeChar_of_isAscii hascii, List.mem_singleton] at hbc
  have hne : ∀ d : Char, isTokenCharacter d = false → d ≠ '.' → c ≠ d := by
    rintro d hd hdot rfl
    rcases ht.chars c hc with h | h
    · rw [hd] at h; cases h
    · exact hdot h
  refine ⟨fun h => hne '\\' (by decide) (by decide) ?_, fun h => hne '%' (by decide) (by decide) ?_⟩
  · rw [hbc, ← UInt8.toNat_inj, ScanView.toNat_ofNat_of_isAscii hascii] at h
    exact Char.toNat_inj.mp h
  · rw [hbc, ← UInt8.toNat_inj, ScanView.toNat_ofNat_of_isAscii hascii] at h
    exact Char.toNat_inj.mp h

theorem composedViews_of_untouched (u : Unicode) {root : ScanView}
    (hlen : root.sourceByByte.length = len root.text) (hd : ScanView.decodings u root = .ok []) :
    ScanView.composedViews u root = .ok [root] := by
  have hbound : ¬max (root.sourceByByte.length * 4) 4 < len root.text := by rw [hlen]; omega
  have hviews : ¬maxRegularViews ≤ ([] : List ScanView).length := by decide
  have hdepth : ¬maxDecodeLayers ≤ 0 := by decide
  simp only [ScanView.composedViews, ScanView.composeFrom, List.not_mem_nil, ↓reduceIte, hviews,
    hbound, hdepth, hd, ok_bind, List.map_nil, List.nil_append]

/-- A dotted text has at most two views: itself and itself without its dots. -/
theorem scanViews_separated (u : Unicode) {t : Str} (ht : Separated none t) :
    ∃ views, scanViews u t = .ok views ∧ ∀ v ∈ views, v.1.text = t ∨ v.1.text = undotted t := by
  obtain ⟨root, hroot, htext⟩ : ScanView.NormalizesTo u t t :=
    ScanView.normalizesTo_of_bytes u (@ScanView.canonicalizeFrom_ascii u _ 0 0 _ ht.isAscii fun _ _ => rfl)
      (rewrittenBytes_plain fun _ b _ hb =>
        ScanView.continuationRule_none (ht.bytes_ne b hb).1).symm
  have hmaps := (ScanView.safe_normalize u.nfkc t).2 root hroot
  have huntouched : ∀ rule : ByteRule, (∀ prev b bs', b ∈ bytes t → rule prev (b :: bs') = none) →
      ∃ ps, root.rewriteBytes rule = .ok (false, ps) := fun rule h => by
    obtain ⟨ps, hps, _⟩ := @ScanView.rewriteFrom_untouched root rule t hmaps 0 none (bytes root.text)
      (by simp) (by rw [htext]; exact h)
    exact ⟨ps, hps⟩
  obtain ⟨ps, hjson⟩ := huntouched jsonEscapeRule fun prev b bs' hb => by
    have := (ht.bytes_ne b hb).1
    unfold jsonEscapeRule
    split <;> simp_all
  obtain ⟨qs, hpercent⟩ := huntouched percentRule fun prev b bs' hb => by
    have := (ht.bytes_ne b hb).2
    unfold percentRule
    split <;> simp_all
  have hdecodings : ScanView.decodings u root = .ok [] := by
    simp only [ScanView.decodings, ScanView.decodeJsonEscapes, ScanView.decodePercentEncoding, hjson,
      hpercent, ok_bind, ↓reduceIte, ScanView.canonicalizeDecoded, List.append_nil]
  obtain ⟨collapsed, hcollapsed, hundotted⟩ : ∃ o, root.collapseCandidateSeparators = .ok o ∧
      ∀ v ∈ o, v.text = undotted t := by
    obtain ⟨output, hout⟩ := @ScanView.rewriteFrom_ok root separatorRule t hmaps fits_separatorRule
      0 0 none (bytes root.text) (by simp)
    have hsep := hout
    rw [htext, ← List.append_nil (bytes t)] at hsep
    obtain ⟨x, y, hxy, hy, hx, _⟩ := ScanView.rewriteFrom_separated ht (by simp) hsep
    rw [hy rfl, List.append_nil] at hxy
    simp only [ScanView.collapseCandidateSeparators, ScanView.rewriteBytes, hout, ok_bind]
    split
    · exact ⟨none, rfl, by simp⟩
    · rw [hxy, hx, ScanView.fromBytes, if_neg (by rw [← hx]; simp), fromUtf8_bytes]
      exact ⟨_, rfl, by rintro v ⟨⟩; rfl⟩
  have hviews : ScanView.withCollapsed [root] []
      = .ok ((root, false) :: (collapsed.map (·, true)).toList) := by
    have h₀ : ¬maxScanViews ≤ ([] : List (ScanView × Bool)).length := by decide
    have h₁ : ¬maxScanViews ≤ ([] : List (ScanView × Bool)).length + 1 := by decide
    cases collapsed with
    | none =>
        simp only [ScanView.withCollapsed, h₀, ↓reduceIte, hcollapsed, ok_bind, List.nil_append]
        rfl
    | some v =>
        simp only [ScanView.withCollapsed, h₀, h₁, ↓reduceIte, hcollapsed, ok_bind, List.nil_append]
        rfl
  refine ⟨(root, false) :: (collapsed.map (·, true)).toList, ?_, ?_⟩
  · simp only [scanViews, hroot, ok_bind,
      composedViews_of_untouched u hmaps.length hdecodings, hviews]
  · cases collapsed with
    | none => simp [htext]
    | some v => simp [htext, hundotted v rfl]

/-! ## Secrets -/

/-- The token-shaped secret patterns whose matches have no dot. -/
def dotlessPatterns : List Regex :=
  [openAiPattern, githubPattern, awsPattern, googlePattern, stripePattern, slackPattern]

/-- Some part of the text is matched by the pattern. -/
def Contains (r : Regex) (s : Str) : Prop := ∃ a m b, s = a ++ m ++ b ∧ Derives r [] m []

theorem Dotted.undotted {s t : Str} (h : Dotted s t) : undotted t = AgentVeil.undotted s := by
  induction h with
  | nil => rfl
  | cons _ ih => simp only [AgentVeil.undotted, List.filter_cons] at ih ⊢; rw [ih]
  | dot _ _ _ ih => simp_all [AgentVeil.undotted, List.filter_cons]

theorem Dotted.refl (s : Str) : Dotted s s := by
  induction s with
  | nil => exact .nil
  | cons c s ih => exact .cons ih

theorem dotted_insert (a : Str) {c d : Char} (b : Str) (hc : isTokenCharacter c = true)
    (hd : isTokenCharacter d = true) : Dotted (a ++ c :: d :: b) (a ++ c :: '.' :: d :: b) := by
  induction a with
  | nil => exact .dot hc hd (.refl _)
  | cons x a ih => exact .cons ih

theorem Dotted.head?_eq {s t : Str} (h : Dotted s t) : t.head? = s.head? := by
  cases h with
  | nil => rfl
  | cons => rfl
  | dot => rfl

theorem Separated.change {prev prev' : Option Char} {c : Char} {t : Str}
    (h : Separated prev (c :: t)) (hc : isTokenCharacter c = true) : Separated prev' (c :: t) :=
  ⟨.inl hc, h.2⟩

theorem Dotted.separated {s t : Str} (h : Dotted s t) {prev : Option Char}
    (hs : Separated prev s) : Separated prev t := by
  induction h generalizing prev with
  | nil => trivial
  | cons h ih =>
      rw [Separated, ← h.head?_eq] at hs
      exact ⟨hs.1, ih hs.2⟩
  | dot left right _ ih =>
      exact ⟨.inl left, .inr ⟨rfl, left, right⟩, ih (hs.2.change right)⟩

theorem separated_of_token {prev : Option Char} {s : Str}
    (h : ∀ c ∈ s, isTokenCharacter c = true) : Separated prev s := by
  induction s generalizing prev with
  | nil => trivial
  | cons c s ih =>
      obtain ⟨hc, hs⟩ := List.forall_mem_cons.mp h
      exact ⟨.inl hc, ih hs⟩

theorem separated_append_dot {prev : Option Char} {s t : Str} (hne : s ≠ [])
    (hs : ∀ c ∈ s, isTokenCharacter c = true) (hhead : t.head?.any isTokenCharacter = true)
    (ht : Separated (some '.') t) : Separated prev (s ++ '.' :: t) := by
  induction s generalizing prev with
  | nil => exact absurd rfl hne
  | cons c s ih =>
      obtain ⟨hc, hs⟩ := List.forall_mem_cons.mp hs
      cases s with
      | nil => exact ⟨.inl hc, .inr ⟨rfl, hc, hhead⟩, ht⟩
      | cons d s => exact ⟨.inl hc, ih (by simp) hs⟩

theorem dotless_token : ∀ r ∈ dotlessPatterns, Within (isTokenCharacter · = true) r := by
  have alnum : ∀ c, isAsciiAlphanumeric c = true → isTokenCharacter c = true := fun c h => by
    simp [isTokenCharacter, h]
  have word : ∀ c, (isAsciiAlphanumeric c || decide (c = '_')) = true → isTokenCharacter c = true :=
    fun c h => by simp only [isTokenCharacter, h, Bool.true_or]
  have dash : ∀ c, (isAsciiAlphanumeric c || decide (c = '-')) = true → isTokenCharacter c = true :=
    fun c h => by
      rcases Bool.or_eq_true_iff.mp h with h | h
      · exact alnum c h
      · simp only [isTokenCharacter, h, Bool.or_true]
  have upper : ∀ c, (isAsciiUppercase c || isAsciiDigit c) = true → isTokenCharacter c = true :=
    fun c h => alnum c (by
      rcases Bool.or_eq_true_iff.mp h with h | h
      · simp [isAsciiAlphanumeric, h]
      · simp [isAsciiAlphanumeric, h])
  have letters : ∀ s : Str, s.all isTokenCharacter = true →
      Within (isTokenCharacter · = true) (lit s) := fun s h => within_lit (List.all_eq_true.mp h)
  have oneOf : ∀ s : Str, s.all isTokenCharacter = true → ∀ c, decide (c ∈ s) = true →
      isTokenCharacter c = true := fun s h c hc => List.all_eq_true.mp h c (of_decide_eq_true hc)
  simp only [dotlessPatterns, List.forall_mem_cons, List.not_mem_nil, false_implies, implies_true,
    and_true]
  refine ⟨⟨?_, ⟨?_, ?_⟩, fun _ h => h⟩, ⟨⟨?_, ?_, ?_, alnum⟩, ?_, word⟩, ⟨⟨?_, ?_⟩, upper⟩,
    ⟨?_, fun _ h => h⟩, ⟨⟨?_, ?_⟩, ?_, ⟨?_, ?_⟩, ?_, alnum⟩, ⟨⟨?_, ?_, ?_⟩, ?_, ?_⟩, dash⟩
  all_goals first
    | exact letters _ (by decide)
    | exact oneOf _ (by decide)

theorem separated_jwt {b : List Char} {s a : Str} (h : Derives jwtPattern b s a) {prev : Option Char} :
    Separated prev s := by
  simp only [jwtPattern, cat, derives_seq, derives_lit, atLeast, derives_many_one] at h
  obtain ⟨_, _, rfl, rfl, s₁, _, rfl, ⟨_, _, h₁⟩, _, _, rfl, rfl, s₂, _, rfl, ⟨hlen₂, _, h₂⟩, _, s₃,
    rfl, rfl, hlen₃, _, h₃⟩ := h
  have hhead : ∀ t u : Str, 0 < t.length → (∀ c ∈ t, isTokenCharacter c = true) →
      (t ++ u).head?.any isTokenCharacter = true := by
    intro t u ht hall
    cases t with
    | nil => cases ht
    | cons c t => exact hall c (by simp)
  have hprefix : ∀ c ∈ "eyJ".toList ++ s₁, isTokenCharacter c = true := by
    intro c hc
    rcases List.mem_append.mp hc with hc | hc
    · exact List.all_eq_true.mp (by decide : ("eyJ".toList).all isTokenCharacter = true) c hc
    · exact h₁ c hc
  have hsplit : "eyJ".toList ++ (s₁ ++ (".".toList ++ (s₂ ++ (".".toList ++ s₃))))
      = ("eyJ".toList ++ s₁) ++ '.' :: (s₂ ++ '.' :: s₃) := by
    rw [List.append_assoc]; rfl
  rw [hsplit]
  refine separated_append_dot ?_ hprefix (hhead _ _ (by omega) h₂)
    (separated_append_dot ?_ h₂ ?_ (separated_of_token h₃))
  · exact List.append_ne_nil_of_left_ne_nil (by decide) _
  · intro h; rw [h] at hlen₂; simp at hlen₂
  · simpa using hhead s₃ [] (by omega) h₃

theorem plain_of_chars {t : Str} (hne : t ≠ [])
    (h : ∀ c ∈ t, isTokenCharacter c = true ∨ c = '.') : ScanView.Plain t where
  ne := hne
  ascii c hc := by
    rcases h c hc with h | rfl
    · exact isTokenCharacter_isAscii h
    · decide
  noBackslash hc := by rcases h _ hc with h | h <;> exact absurd h (by decide)
  head c hc hbad := by
    have hin := h c (List.mem_of_mem_head? hc)
    simp only [List.mem_cons, List.not_mem_nil, or_false] at hbad
    rcases hbad with rfl | rfl | rfl | rfl <;> exact absurd hin (by decide)

theorem dotless_detector (u : Unicode) : ∀ r ∈ dotlessPatterns, ∃ p ∈ patternDetectors u,
    p.regex = r ∧ p.secretOnly = true ∧ p.dataClass = .credentials := by
  simp [dotlessPatterns, patternDetectors]

theorem contextFree_dotless : ∀ r ∈ dotlessPatterns, ContextFree r := by decide

/-- A match in a part of the source that has only token characters and dots is found. -/
theorem scan_contains (u : Unicode) {scanner : Scanner} {p t q : Str}
    (ht : ∀ c ∈ t, isTokenCharacter c = true ∨ c = '.') {pattern : PatternDetector}
    (hp : pattern ∈ patternDetectors u) (hfree : ContextFree pattern.regex)
    (hc : Contains pattern.regex t) {found : List Finding}
    (h : scanner.scan u (p ++ t ++ q) = .ok found) :
    ∃ f ∈ found, f.dataClass = pattern.dataClass ∧ f.sourceSpan.start < len p + len t ∧
      len p < f.sourceSpan.stop := by
  obtain ⟨a, m, b, rfl, hd⟩ := hc
  have hne : m ≠ [] := nonEmpty_of_minLength (minLength_pattern u pattern hp) _ _ _ hd
  have hm : ScanView.Plain m := plain_of_chars hne fun c hc => ht c (by simp [hc])
  have hsource : p ++ (a ++ m ++ b) ++ q = (p ++ a) ++ m ++ (b ++ q) := by simp
  rw [hsource] at h
  obtain ⟨f, hf, hclass, h₁, h₂⟩ := scan_plain u hm h hp fun _ _ _ _ => hd.context hfree _ _
  simp only [len_append] at h₁ h₂ ⊢
  exact ⟨f, hf, hclass, by omega, by omega⟩

/-- A dotted text of which a part matches, as it is or without its dots, is found. -/
theorem scan_dotted (u : Unicode) {scanner : Scanner} {p t q : Str} (ht : Separated none t)
    (hc : Contains jwtPattern t ∨ ∃ r ∈ dotlessPatterns, Contains r (undotted t))
    {found : List Finding} (h : scanner.scan u (p ++ t ++ q) = .ok found) :
    ∃ f ∈ found, f.dataClass.hardBlock = true ∧ f.sourceSpan.start < len p + len t ∧
      len p < f.sourceSpan.stop := by
  rcases hc with hc | ⟨r, hr, hc⟩
  · have hp : ⟨jwtPattern, .jwt, .jwt, .high, true⟩ ∈ patternDetectors u := by simp [patternDetectors]
    obtain ⟨f, hf, hclass, hover⟩ := scan_contains u ht.chars hp (by decide) hc h
    exact ⟨f, hf, by rw [hclass]; rfl, hover⟩
  obtain ⟨pattern, hp, rfl, hsecret, hclass⟩ := dotless_detector u r hr
  by_cases hdot : '.' ∈ t
  swap
  · have heq : undotted t = t := List.filter_eq_self.mpr fun c hc => by
      rw [decide_eq_true_eq]
      rintro rfl
      exact hdot hc
    rw [heq] at hc
    obtain ⟨f, hf, hfclass, hover⟩ := scan_contains u ht.chars hp (contextFree_dotless _ hr) hc h
    exact ⟨f, hf, by rw [hfclass, hclass]; rfl, hover⟩
  -- the collapsed form of the normalized view shows the text without its dots
  obtain ⟨a, m, b, hparts, hd⟩ := hc
  have hmne : m ≠ [] := nonEmpty_of_minLength (minLength_pattern u pattern hp) _ _ _ hd
  have hne : undotted t ≠ [] := by rw [hparts]; simp [hmne]
  obtain ⟨views, hviews, hscan⟩ := mem_scan u h
  obtain ⟨root, hroot, _, collapsed, hcollapsed, hmem⟩ := mem_scanViews u hviews
  have hplain : ScanView.Plain t :=
    plain_of_chars (by rintro rfl; exact hne rfl) ht.chars
  obtain ⟨_, _, hshows, _⟩ := ScanView.normalize_plain u hplain hroot
  obtain ⟨v, _, _, sources, rfl, hshown, hsub⟩ :=
    ScanView.collapse_shows hshows ht hdot hcollapsed hne
  rw [hparts] at hshown
  obtain ⟨sources', hpart, hsub'⟩ := hshown.part
  obtain ⟨m', hm', hover⟩ := hpart.match_overlaps (r := ⟨len p, len p + t.length⟩)
    (fun s hs => ScanView.unitSpans_within (hsub s (hsub' s hs)))
    (nonEmpty_of_minLength (minLength_pattern u pattern hp))
    (hd.context (contextFree_dotless _ hr) _ _)
  obtain ⟨fs, hfs, hsame⟩ := hscan _ (hmem v rfl)
  obtain ⟨f, hf, hfclass, hsource⟩ := scanView_pattern u hfs hp (.inr (.inl hsecret)) hm'
  obtain ⟨g, hg, hfg⟩ := hsame f hf
  simp only [sameFinding, Bool.and_eq_true, decide_eq_true_eq] at hfg
  rw [len_of_isAscii ht.isAscii]
  exact ⟨g, hg, by rw [← hfg.1.2, hfclass, hclass]; rfl, hfg.1.1 ▸ hover _ hsource⟩

/-! ## A dotted text alone -/

/-- Every other pattern requires a character that no dotted text has. -/
theorem requires_pattern (u : Unicode) : ∀ p ∈ patternDetectors u,
    p.regex ∈ jwtPattern :: dotlessPatterns ∨
      Requires (fun c => ¬(isTokenCharacter c = true ∨ c = '.')) p.regex := by
  simp only [patternDetectors, List.forall_mem_cons, List.not_mem_nil, false_implies, implies_true,
    and_true]
  refine ⟨.inr ?_, .inl ?_, .inl ?_, .inl ?_, .inl ?_, .inl ?_, .inl ?_, .inr ?_, .inr ?_, .inl ?_⟩
  · exact .inl (requires_lit ⟨'[', by decide, by decide⟩)
  iterate 6 simp [dotlessPatterns]
  · exact .inr (.inr (.inl (requires_lit ⟨':', by decide, by decide⟩)))
  · refine .inr (.inr (.inl ⟨Nat.one_pos, fun c hc => ?_⟩))
    simp only [Bool.or_eq_true, decide_eq_true_eq] at hc
    rcases hc with rfl | rfl
    · decide
    · decide
  · simp

theorem requires_env :
    Requires (fun c => ¬(isTokenCharacter c = true ∨ c = '.')) envAssignmentPattern := by
  refine .inr (.inr (.inr (.inr (.inr (.inr (.inr (.inl fun c hc => ?_)))))))
  simp only [Bool.or_eq_true, decide_eq_true_eq] at hc
  rcases hc with rfl | rfl
  · decide
  · decide

/-- A view of a dotted text of which no part matches has no finding of a hard-block class. -/
theorem hardBlock_of_dotted (u : Unicode) {scanner : Scanner} {view : ScanView} {secret : Bool}
    (hview : ∀ c ∈ view.text, isTokenCharacter c = true ∨ c = '.')
    (hnone : ∀ r ∈ jwtPattern :: dotlessPatterns, ¬Contains r view.text) {fs : List Finding}
    (h : scanView u scanner (view, secret) = .ok fs) : ∀ f ∈ fs, f.dataClass.hardBlock = false := by
  intro f hf
  by_contra hb
  rcases scanView_hardBlock u h hf (by simpa using hb) with ⟨p, hp, m, hm⟩ | hkey | ⟨m, hm⟩
  · by_cases hr : p.regex ∈ jwtPattern :: dotlessPatterns
    · obtain ⟨htext, hd⟩ := mem_findIter hm
      have hfree : ContextFree p.regex := by
        rcases List.mem_cons.mp hr with h | h
        · rw [h]; decide
        · exact contextFree_dotless _ h
      exact hnone _ hr ⟨_, _, _, htext, hd.context hfree _ _⟩
    · rw [findIter_eq_nil ((requires_pattern u p hp).resolve_left hr)
        fun c hc hn => hn (hview c hc)] at hm
      cases hm
  · obtain ⟨i, hi⟩ := Option.ne_none_iff_exists'.mp hkey
    obtain ⟨a, b, htext, _⟩ := findStr_eq_some hi
    have hblank : ' ' ∈ beginMarker := by decide
    exact absurd (hview ' ' (by rw [htext]; simp [hblank])) (by decide)
  · rw [findIter_eq_nil requires_env fun c hc hn => hn (hview c hc)] at hm
    cases hm

theorem undotted_chars {t : Str} (h : ∀ c ∈ t, isTokenCharacter c = true ∨ c = '.') :
    ∀ c ∈ undotted t, isTokenCharacter c = true := by
  intro c hc
  obtain ⟨hc, hne⟩ := List.mem_filter.mp hc
  exact (h c hc).resolve_right (of_decide_eq_true hne)

theorem contains_undotted {r : Regex} (hr : r ∈ dotlessPatterns) {t : Str} (h : Contains r t) :
    Contains r (undotted t) := by
  obtain ⟨a, m, b, rfl, hd⟩ := h
  have hm : undotted m = m := List.filter_eq_self.mpr fun c hc => by
    have := hd.within (dotless_token r hr) c hc
    rw [decide_eq_true_eq]
    rintro rfl
    cases this
  exact ⟨undotted a, m, undotted b, by simp only [undotted, List.filter_append] at hm ⊢; rw [hm], hd⟩

theorem not_contains_jwt {s : Str} (h : ∀ c ∈ s, isTokenCharacter c = true) :
    ¬Contains jwtPattern s := by
  rintro ⟨a, m, b, rfl, hd⟩
  have hreq : Requires (· = '.') jwtPattern :=
    .inr (.inr (.inl (requires_lit ⟨'.', by decide, rfl⟩)))
  obtain ⟨c, hc, rfl⟩ := hd.requires hreq
  exact absurd (h '.' (by simp [hc])) (by decide)

/-- A dotted text of which no part matches, as it is or without its dots, scans without a finding of
a hard-block class. -/
theorem scan_dotted_clean (u : Unicode) {t : Str} (ht : Separated none t)
    (hc : ¬(Contains jwtPattern t ∨ ∃ r ∈ dotlessPatterns, Contains r (undotted t))) :
    ∃ found, (Scanner.new ⟨[], [], []⟩).scan u t = .ok found ∧
      ∀ f ∈ found, f.dataClass.hardBlock = false := by
  obtain ⟨hjwt, hdotless⟩ := not_or.mp hc
  obtain ⟨views, hviews, htext⟩ := scanViews_separated u ht
  have hmaps := (safe_scanViews u t).2 _ hviews
  have hconfigured : (Scanner.new ⟨[], [], []⟩).Configured := Scanner.configured_new (by decide)
  have hchars : ∀ v ∈ views, ∀ c ∈ v.1.text, isTokenCharacter c = true ∨ c = '.' := by
    intro v hv
    rcases htext v hv with h | h
    · rw [h]; exact ht.chars
    · rw [h]; exact fun c hc => .inl (undotted_chars ht.chars c hc)
  have hok : ∀ v ∈ views, ∃ fs, scanView u (Scanner.new ⟨[], [], []⟩) v = .ok fs := by
    intro v hv
    refine (finds_scanView_iff u hconfigured (hmaps v hv)).mpr fun _ => ⟨?_, ?_⟩
    · rintro (⟨m, hm, hb⟩ | ⟨suffix, hs, _⟩)
      · obtain ⟨htext, hd⟩ := mem_findIter hm
        obtain ⟨_, _, hstart⟩ := part_range htext
          (Nat.lt_of_lt_of_le (by decide) hd.minLength_le)
        rw [isCharBoundary_of_isAscii (fun c hc => ?_)
          (Nat.le_trans (Nat.sub_le _ _) (le_len_of_isCharBoundary hstart))] at hb
        · cases hb
        · rcases hchars v hv c hc with h | rfl
          · exact isTokenCharacter_isAscii h
          · decide
      · cases hs
    · rintro ⟨home, hh, _⟩
      cases hh
  have hnone : ∀ v ∈ views, ∀ r ∈ jwtPattern :: dotlessPatterns, ¬Contains r v.1.text := by
    intro v hv
    have hclear : ∀ r ∈ dotlessPatterns, ¬Contains r (undotted t) := fun r hr h =>
      hdotless ⟨r, hr, h⟩
    rcases htext v hv with h | h
    · rw [h]
      exact List.forall_mem_cons.mpr ⟨hjwt, fun r hr h => hclear r hr (contains_undotted hr h)⟩
    · rw [h]
      exact List.forall_mem_cons.mpr ⟨not_contains_jwt (undotted_chars ht.chars), hclear⟩
  obtain ⟨all, hall, hsoft⟩ : ∃ all, gather (scanView u (Scanner.new ⟨[], [], []⟩)) views = .ok all ∧
      ∀ f ∈ all, f.dataClass.hardBlock = false := by
    cases hall : gather (scanView u (Scanner.new ⟨[], [], []⟩)) views with
    | error e =>
        obtain ⟨l₁, v, l₂, rfl, _, hv⟩ := gather_error_iff.mp hall
        obtain ⟨fs, hfs⟩ := hok v (by simp)
        rw [hfs] at hv
        cases hv
    | ok all =>
        refine ⟨all, rfl, fun f hf => ?_⟩
        obtain ⟨v, hv, fs, hfs, hf⟩ := mem_of_gather hall hf
        exact hardBlock_of_dotted u (hchars v hv) (hnone v hv) hfs f hf
  refine ⟨_, by simp only [Scanner.scan, hviews, hall, ok_bind]; rfl, fun f hf => ?_⟩
  exact hsoft f (mem_sortBy.mp (mem_of_mem_dedupBy hf))

end AgentVeil
