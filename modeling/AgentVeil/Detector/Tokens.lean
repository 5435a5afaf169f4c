import AgentVeil.Detector.Lemmas.Isolated
import AgentVeil.Ledger.Lemmas.Issue

/-!
# Issued tokens are recognised

An issued token is found in any text, by the restorer and in every view of the scan, at exactly its
position. No other token overlaps it, since a token has brackets at its ends only.
-/

namespace AgentVeil

open Rust Rust.Regex

/-! ## Texts in brackets -/

/-- A text with brackets at its ends and none inside. -/
def Bracketed (t : Str) : Prop := ∃ body, t = '[' :: body ++ [']'] ∧ '[' ∉ body ∧ ']' ∉ body

/-- A bracketed text begins only once. -/
theorem Bracketed.head_only {t x y : Str} (ht : Bracketed t) (h : t = x ++ '[' :: y) : x = [] := by
  obtain ⟨body, rfl, hopen, _⟩ := ht
  cases x with
  | nil => rfl
  | cons c x =>
      obtain ⟨_, h⟩ := List.cons.inj h
      have hmem : '[' ∈ body ++ [']'] := by
        rw [show body ++ [']'] = x ++ '[' :: y from h]
        simp
      rcases List.mem_append.mp hmem with hmem | hmem
      · exact absurd hmem hopen
      · exact absurd (List.mem_singleton.mp hmem) (by decide)

/-- Bracketed texts at one place are the same. -/
theorem Bracketed.eq_of_append {t t' b b' : Str} (ht : Bracketed t) (ht' : Bracketed t')
    (h : t ++ b = t' ++ b') : t = t' := by
  obtain ⟨body, rfl, _, hclose⟩ := ht
  obtain ⟨body', rfl, _, hclose'⟩ := ht'
  simp only [List.cons_append, List.append_assoc, List.nil_append, List.cons.injEq, true_and] at h
  have hbody : body = body' := by
    have hstop : ∀ {x y : Str}, ']' ∉ x → (x ++ ']' :: y).takeWhile (· ≠ ']') = x := by
      intro x y hx
      rw [List.takeWhile_append_of_pos fun c hc => by
        have : c ≠ ']' := fun hcc => hx (hcc ▸ hc)
        simp [this]]
      simp
    rw [← @hstop body b hclose, h, hstop hclose']
  rw [hbody]

/-- Two bracketed parts of a text are the same or apart. -/
theorem Bracketed.apart {a t b a' t' b' : Str} (ht : Bracketed t) (ht' : Bracketed t')
    (h : a ++ t ++ b = a' ++ t' ++ b') :
    (a = a' ∧ t = t') ∨ len a + len t ≤ len a' ∨ len a' + len t' ≤ len a := by
  have hopen : ∀ {t : Str}, Bracketed t → ∃ y, t = '[' :: y := by
    rintro _ ⟨body, rfl, _⟩
    exact ⟨body ++ [']'], rfl⟩
  -- a part that begins inside the other begins at its start
  have hinside : ∀ {a t b x t' b' : Str}, Bracketed t → Bracketed t' →
      t ++ b = x ++ (t' ++ b') → x = [] ∨ len t ≤ len x := by
    intro a t b x t' b' ht ht' h
    rcases Nat.lt_or_ge x.length t.length with hlt | hge
    · left
      obtain ⟨y, rfl⟩ := hopen ht'
      rcases List.append_eq_append_iff.mp h with ⟨m, rfl, hm⟩ | ⟨m, rfl, hm⟩
      · rw [List.length_append] at hlt
        omega
      · cases m with
        | nil => simp at hlt
        | cons c m =>
            obtain ⟨rfl, _⟩ := List.cons.inj hm
            exact ht.head_only rfl
    · right
      rcases List.append_eq_append_iff.mp h with ⟨m, rfl, hm⟩ | ⟨m, rfl, hm⟩
      · rw [len_append]
        omega
      · rw [List.length_append] at hge
        obtain rfl : m = [] := List.length_eq_zero_iff.mp (by omega)
        simp
  rw [List.append_assoc, List.append_assoc] at h
  rcases List.append_eq_append_iff.mp h with ⟨x, rfl, hx⟩ | ⟨x, rfl, hx⟩
  · rcases @hinside a t b x t' b' ht ht' hx with rfl | hle
    · exact .inl ⟨by simp, ht.eq_of_append ht' (by simpa using hx)⟩
    · exact .inr (.inl (by rw [len_append]; omega))
  · rcases @hinside a' t' b' x t b ht' ht hx with rfl | hle
    · exact .inl ⟨by simp, (ht'.eq_of_append ht (by simpa using hx)).symm⟩
    · exact .inr (.inr (by rw [len_append]; omega))

/-! ## The token pattern -/

/-- The labels of tokens. -/
def tokenLabels : List Str := ["EMAIL", "PHONE", "IPV4", "HOST", "PATH", "TERM"].map String.toList

theorem derives_tokenPattern {b : List Char} {t a : Str} : Derives tokenPattern b t a ↔
    ∃ label ∈ tokenLabels, ∃ h : Str, t = "[AV_".toList ++ (label ++ ("_".toList ++ (h ++ "]".toList)))
      ∧ h.length = 32 ∧ ∀ c ∈ h, isUpperHex c = true := by
  have hlabel : ∀ {b : List Char} {m a : Str},
      Derives (anyOf (["EMAIL", "PHONE", "IPV4", "HOST", "PATH", "TERM"].map (lit ·.toList))) b m a ↔
        m ∈ tokenLabels := by
    intro b m a
    simp only [List.map_cons, List.map_nil, anyOf, derives_alt, derives_lit, tokenLabels,
      List.mem_cons, List.not_mem_nil, or_false]
  simp only [tokenPattern, cat, derives_seq, hlabel, derives_lit, exactly, derives_many_one,
    Option.some.injEq, forall_eq']
  constructor
  · rintro ⟨_, _, rfl, rfl, label, _, rfl, hl, _, _, rfl, rfl, h, _, rfl, ⟨hlo, hhi, hall⟩, rfl⟩
    exact ⟨label, hl, h, rfl, Nat.le_antisymm hhi hlo, hall⟩
  · rintro ⟨label, hl, h, rfl, hlen, hall⟩
    exact ⟨_, _, rfl, rfl, label, _, rfl, hl, _, _, rfl, rfl, h, _, rfl,
      ⟨Nat.le_of_eq hlen.symm, Nat.le_of_eq hlen, hall⟩, rfl⟩

theorem nonEmpty_tokenPattern : Regex.NonEmpty tokenPattern :=
  nonEmpty_of_minLength (by decide)

theorem isUpperHex_cases {c : Char} (h : isUpperHex c = true) :
    isAscii c = true ∧ c ≠ '[' ∧ c ≠ ']' ∧ c ≠ '\\' ∧ c ≠ '%' ∧ c ≠ '.' := by
  have hne : ∀ d : Char, isUpperHex d = false → c ≠ d := by
    rintro d hd rfl
    rw [hd] at h
    cases h
  refine ⟨?_, hne _ (by decide), hne _ (by decide), hne _ (by decide), hne _ (by decide),
    hne _ (by decide)⟩
  simp only [isUpperHex, isAsciiDigit, Bool.or_eq_true, Bool.and_eq_true, decide_eq_true_eq] at h
  simp only [isAscii, decide_eq_true_eq]
  omega

/-- What the pattern matches is in brackets, and no pass changes it. -/
theorem token_cases {b : List Char} {t a : Str} (h : Derives tokenPattern b t a) :
    Bracketed t ∧ Inert t := by
  obtain ⟨label, hl, digits, rfl, _, hall⟩ := derives_tokenPattern.mp h
  have hbody : ∀ c ∈ "AV_".toList ++ (label ++ ("_".toList ++ digits)),
      isAscii c = true ∧ c ≠ '[' ∧ c ≠ ']' ∧ c ≠ '\\' ∧ c ≠ '%' ∧ c ≠ '.' := by
    have hfixed : ∀ label ∈ tokenLabels, ∀ c ∈ "AV_".toList ++ (label ++ "_".toList),
        isAscii c = true ∧ c ≠ '[' ∧ c ≠ ']' ∧ c ≠ '\\' ∧ c ≠ '%' ∧ c ≠ '.' := by
      have hall : tokenLabels.all (fun label => ("AV_".toList ++ (label ++ "_".toList)).all fun c =>
          isAscii c = true ∧ c ≠ '[' ∧ c ≠ ']' ∧ c ≠ '\\' ∧ c ≠ '%' ∧ c ≠ '.') = true := by decide
      simpa only [List.all_eq_true, decide_eq_true_eq] using hall
    intro c hc
    simp only [List.mem_append] at hc
    rcases hc with hc | hc | hc | hc
    · exact hfixed label hl c (List.mem_append_left _ hc)
    · exact hfixed label hl c (List.mem_append_right _ (List.mem_append_left _ hc))
    · exact hfixed label hl c (List.mem_append_right _ (List.mem_append_right _ hc))
    · exact isUpperHex_cases (hall c hc)
  have htext : "[AV_".toList ++ (label ++ ("_".toList ++ (digits ++ "]".toList)))
      = '[' :: ("AV_".toList ++ (label ++ ("_".toList ++ digits))) ++ [']'] := by simp
  rw [htext]
  constructor
  · exact ⟨_, rfl, fun hc => (hbody _ hc).2.1 rfl, fun hc => (hbody _ hc).2.2.1 rfl⟩
  · refine ⟨rfl, fun c hc => ?_, fun c hc => ?_⟩
    · rcases List.mem_append.mp hc with hc | hc
      · rcases List.mem_cons.mp hc with rfl | hc
        · decide
        · exact (hbody c hc).1
      · rw [List.mem_singleton.mp hc]
        decide
    · rcases List.mem_append.mp hc with hc | hc
      · rcases List.mem_cons.mp hc with rfl | hc
        · decide
        · exact (hbody c hc).2.2.2
      · rw [List.mem_singleton.mp hc]
        decide

/-- In a text around a token, the pattern finds the token, and every other match is apart from it. -/
theorem findIter_token {b : List Char} {p t q : Str} (ht : Derives tokenPattern b t q) :
    (∃ m ∈ findIter tokenPattern (p ++ t ++ q), m.before.reverse = p ∧ m.text = t) ∧
    ∀ m ∈ findIter tokenPattern (p ++ t ++ q), (m.before.reverse = p ∧ m.text = t) ∨
      m.start + len m.text ≤ len p ∨ len p + len t ≤ m.start := by
  have hapart : ∀ m ∈ findIter tokenPattern (p ++ t ++ q), (m.before.reverse = p ∧ m.text = t) ∨
      m.start + len m.text ≤ len p ∨ len p + len t ≤ m.start := by
    intro m hm
    obtain ⟨hs, hd⟩ := mem_findIter hm
    have := (token_cases hd).1.apart (token_cases ht).1 hs.symm
    rwa [len_reverse] at this
  refine ⟨?_, hapart⟩
  have hd : Derives tokenPattern p.reverse t q := ht.context (by decide +kernel) _ _
  obtain ⟨m, hm, h₁, h₂⟩ := findIter_range_overlaps nonEmpty_tokenPattern hd
  refine ⟨m, hm, ?_⟩
  rcases hapart m hm with h | h | h
  · exact h
  · exact absurd h₂ (Nat.not_lt.mpr h)
  · exact absurd h₁ (Nat.not_lt.mpr h)

/-! ## Issued tokens -/

theorem IsTokenOf.derives {c : DataClass} {t : Token} (ht : IsTokenOf c t) (hc : c.hardBlock = false)
    (b : List Char) (a : Str) : Derives tokenPattern b t a := by
  obtain ⟨digits, hlen, hdigits, rfl⟩ := ht
  have hupper : ∀ d ∈ upperHexDigits, isUpperHex d = true := List.all_eq_true.mp (by decide)
  refine derives_tokenPattern.mpr ⟨c.tokenLabel, ?_, digits, ?_, hlen, fun d hd =>
    hupper d (hdigits d hd)⟩
  · cases c <;> first | decide | cases hc
  · simp [tokenText]

theorem givesOnly_scanPrivateKeysFrom (view : ScanView) (fuel cursor : Nat) :
    GivesOnly .privateKey (scanPrivateKeysFrom view fuel cursor) := by
  induction fuel generalizing cursor with
  | zero => exact nofun
  | succ fuel ih =>
      refine .bind fun rest => ?_
      split
      · exact givesOnly_nil
      refine .bind fun afterBegin => ?_
      split
      · exact givesOnly_finding view _ _ _
      refine .bind fun label => .ite (ih _) (.bind fun body => ?_)
      split
      · exact givesOnly_finding view _ _ _
      · intro fs h g hg
        simp only [bind_ok_iff, Except.ok.injEq] at h
        obtain ⟨f, hf, rest, hrest, rfl⟩ := h
        rcases List.mem_cons.mp hg with rfl | hg
        · exact finding_dataClass hf
        · exact ih _ _ hrest g hg

theorem givesOnly_scanEnvAssignments (view : ScanView) :
    GivesOnly .credentials (scanEnvAssignments view) := by
  refine .gather fun m _ => ?_
  split
  · exact givesOnly_nil
  · exact .ite givesOnly_nil (.bind fun _ => givesOnly_finding view _ _ _)

/-- A finding of the token namespace is a match of the token pattern. -/
theorem scanView_token (u : Unicode) {scanner : Scanner} {view : ScanView} {secret : Bool}
    {fs : List Finding} (h : scanView u scanner (view, secret) = .ok fs) {f : Finding} (hf : f ∈ fs)
    (hc : f.dataClass = .tokenNamespace) :
    ∃ m ∈ findIter tokenPattern view.text, view.combinedSource m.range = .ok f.sourceSpan := by
  obtain ⟨patterns, keys, assignments, hpatterns, hkeys, hassignments, hparts⟩ := scanView_parts u h
  have hregex : ∀ p ∈ patternDetectors u, p.dataClass = .tokenNamespace → p.regex = tokenPattern := by
    simp [patternDetectors]
  rcases hparts f hf with hf | hf | hf | hf
  · obtain ⟨p, hp, bs, hbs, hf⟩ := mem_of_gather hpatterns hf
    have hclass := givesOnly_scanPattern p view bs hbs f hf
    rw [← hregex p (List.mem_filter.mp hp).1 (hclass.symm.trans hc)]
    obtain ⟨m, hm, cs, hcs, hf⟩ := mem_of_gather hbs hf
    simp only [ScanView.finding, bind_ok_iff, Except.ok.injEq] at hcs
    obtain ⟨g, ⟨r, hr, rfl⟩, rfl⟩ := hcs
    rw [List.mem_singleton.mp hf]
    exact ⟨m, hm, hr⟩
  · have := givesOnly_scanPrivateKeysFrom view _ _ keys hkeys f hf
    rw [hc] at this
    cases this
  · have := givesOnly_scanEnvAssignments view assignments hassignments f hf
    rw [hc] at this
    cases this
  · rw [hc] at hf
    cases hf

/-- An issued token is recognised in every text. The restorer finds it at its position, and no other
match overlaps it. A scan that succeeds has a finding of the token namespace on exactly the token, and
every other one is apart from it. -/
theorem token_recognised {c : DataClass} (hc : c.hardBlock = false) {t : Token} (ht : IsTokenOf c t)
    (p s : Str) :
    ((∃ m ∈ findIter tokenPattern (p ++ t ++ s), m.range = ⟨len p, len p + len t⟩ ∧ m.text = t) ∧
      ∀ m ∈ findIter tokenPattern (p ++ t ++ s), m.range = ⟨len p, len p + len t⟩ ∨
        m.range.stop ≤ len p ∨ len p + len t ≤ m.range.start) ∧
    ∀ (u : Unicode) (scanner : Scanner) (found : List Finding),
      scanner.scan u (p ++ t ++ s) = .ok found →
        (∃ f ∈ found, f.dataClass = .tokenNamespace ∧ f.sourceSpan = ⟨len p, len p + len t⟩) ∧
        ∀ f ∈ found, f.dataClass = .tokenNamespace → f.sourceSpan = ⟨len p, len p + len t⟩ ∨
          f.sourceSpan.stop ≤ len p ∨ len p + len t ≤ f.sourceSpan.start := by
  have hrange : ∀ {a : Str} {m : Match}, m.before.reverse = a → m.text = t →
      m.range = ⟨len a, len a + len t⟩ := by
    rintro a m rfl rfl
    simp [Part.range, Part.start]
  have hinert := (token_cases (ht.derives hc [] [])).2
  constructor
  · obtain ⟨⟨m, hm, hp, hmt⟩, hall⟩ := @findIter_token [] p t s (ht.derives hc [] s)
    refine ⟨⟨m, hm, hrange hp hmt, hmt⟩, fun m hm => ?_⟩
    rcases hall m hm with ⟨hp, hmt⟩ | h | h
    · exact .inl (hrange hp hmt)
    · exact .inr (.inl h)
    · exact .inr (.inr h)
  · intro u scanner found hfound
    -- a match in a view is the token itself, or it comes from one side of the token
    have hview : ∀ view, ScanView.Reachable u.nfkc (p ++ t ++ s) view →
        (∃ m ∈ findIter tokenPattern view.text, ∀ r, view.combinedSource m.range = .ok r →
          r = ⟨len p, len p + len t⟩) ∧
        ∀ m ∈ findIter tokenPattern view.text, ∀ r, view.combinedSource m.range = .ok r →
          r = ⟨len p, len p + len t⟩ ∨ r.stop ≤ len p ∨ len p + len t ≤ r.start := by
      intro view hreach
      have hmaps := hreach.tracks.mapsTo
      obtain ⟨a, b, before, after, htext, hsource, hlen, hbefore, hafter⟩ := hreach.isolates u hinert
      have hsides := fun {k m} =>
        @ScanView.getElem?_sides view t (len p) a before after k m hsource hlen
      have hshows : view.Shows a t b (ScanView.unitSpans (len p) (len t)) :=
        ⟨htext, before, after, hsource, hlen, ScanView.length_unitSpans _ _⟩
      have hexact : ∀ r, view.combinedSource ⟨len a, len a + len t⟩ = .ok r →
          r = ⟨len p, len p + len t⟩ := fun r hr =>
        hshows.combinedSource_unit (len_pos.mpr hinert.ne) (Nat.le_refl _) hr
      obtain ⟨⟨m, hm, ha, hmt⟩, hall⟩ := @findIter_token [] a t b (ht.derives hc [] b)
      rw [← htext] at hm hall
      refine ⟨⟨m, hm, fun r hr => hexact r (by rwa [hrange ha hmt] at hr)⟩, fun m hm r hr => ?_⟩
      rcases hall m hm with ⟨ha, hmt⟩ | h | h
      · rw [hrange ha hmt] at hr
        exact .inl (hexact r hr)
      · refine .inr (.inl (ScanView.combinedSource_within hr fun k x _ hk hx =>
          ⟨Nat.zero_le _, hbefore x ((hsides hx).1 ?_)⟩).2)
        simp only [Part.range] at hk
        omega
      · refine .inr (.inr (ScanView.combinedSource_within hr fun k x hk _ hx =>
          ⟨hafter x ((hsides hx).2 ?_), hmaps.stop_le hx⟩).1)
        simp only [Part.range] at hk
        omega
    obtain ⟨views, hviews, hscan⟩ := mem_scan u hfound
    constructor
    · obtain ⟨root, hroot, hmem, _⟩ := mem_scanViews u hviews
      obtain ⟨fs, hfs, hsame⟩ := hscan _ hmem
      obtain ⟨m, hm, hexact⟩ := (hview root (.normalize hroot)).1
      obtain ⟨f, hf, hclass, hsource⟩ := scanView_pattern u hfs
        (List.mem_cons_self : ⟨tokenPattern, _, _, _, _⟩ ∈ patternDetectors u) (.inl rfl) hm
      obtain ⟨g, hg, hfg⟩ := hsame f hf
      simp only [sameFinding, Bool.and_eq_true, decide_eq_true_eq] at hfg
      exact ⟨g, hg, hfg.1.2 ▸ hclass, hfg.1.1 ▸ hexact _ hsource⟩
    · intro f hf hclass
      simp only [Scanner.scan, bind_ok_iff, Except.ok.injEq] at hfound
      obtain ⟨views', hviews', all, hall, rfl⟩ := hfound
      obtain ⟨⟨view, secret⟩, hv, fs, hfs, hf⟩ :=
        mem_of_gather hall (mem_sortBy.mp (mem_of_mem_dedupBy hf))
      obtain ⟨m, hm, hsource⟩ := scanView_token u hfs hf hclass
      exact (hview view (reachable_scanViews u hviews' _ hv)).2 m hm _ hsource

/-- A token between a full stop and a percent sign. -/
theorem token_recognised_demo :
    ∃ m ∈ findIter tokenPattern (".".toList ++ tokenText .email
      ((List.ofFn fun _ : Fin tokenRandomBytes => (0xA5 : UInt8)).flatMap hexByte) ++ "%5D".toList),
      m.range = ⟨1, 1 + 43⟩ := by
  obtain ⟨⟨⟨m, hm, hr, _⟩, _⟩, _⟩ := token_recognised (rfl : DataClass.email.hardBlock = false)
    (isTokenOf_drawn .email fun _ => 0xA5) ".".toList "%5D".toList
  exact ⟨m, hm, hr.trans (by decide)⟩

end AgentVeil
