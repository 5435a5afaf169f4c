import AgentVeil.Detector.Coverage
import AgentVeil.Rust.Search

/-!
# Composed views

The loop of `composed_views` is a breadth-first search for the decodings of the root. It never holds
more views than it may, so it needs no limit on their number.
-/

namespace AgentVeil

open Rust

namespace ScanView

variable {u : Unicode} {root view w : ScanView} {l : List ScanView}

/-! ## Decodings -/

/-- One decoding of the view, canonicalized. -/
def Decodes (u : Unicode) (view w : ScanView) : Prop :=
  ∃ decoded, (view.decodeJsonEscapes = .ok (some decoded) ∨
    view.decodePercentEncoding = .ok (some decoded)) ∧ canonicalize u.nfkc decoded = .ok w

/-- A decoding of the view fails, or what it gives is not canonicalized. -/
def DecodingFails (u : Unicode) (view : ScanView) : Prop :=
  (∃ e, view.decodeJsonEscapes = .error e) ∨ (∃ e, view.decodePercentEncoding = .error e) ∨
    ∃ decoded e, (view.decodeJsonEscapes = .ok (some decoded) ∨
      view.decodePercentEncoding = .ok (some decoded)) ∧ canonicalize u.nfkc decoded = .error e

/-- The views that a sequence of `n` decodings of the root gives. -/
inductive Decoded (u : Unicode) (root : ScanView) : Nat → ScanView → Prop where
  | root : Decoded u root 0 root
  | decode {n view w} : Decoded u root n view → Decodes u view w → Decoded u root (n + 1) w

/-- The views of one decoder. -/
theorem canonicalizeDecoded_ok_iff {o : Option ScanView} :
    canonicalizeDecoded u o = .ok l ↔
      (o = none ∧ l = []) ∨ ∃ v w, o = some v ∧ canonicalize u.nfkc v = .ok w ∧ l = [w] := by
  cases o with
  | none => simp [canonicalizeDecoded, eq_comm]
  | some v =>
      simp only [canonicalizeDecoded, bind_ok_iff, Except.ok.injEq, reduceCtorEq, false_and,
        Option.some.injEq, false_or]
      constructor
      · rintro ⟨w, hw, rfl⟩
        exact ⟨v, w, rfl, hw, rfl⟩
      · rintro ⟨_, w, rfl, hw, rfl⟩
        exact ⟨w, hw, rfl⟩

theorem length_canonicalizeDecoded {o : Option ScanView} (h : canonicalizeDecoded u o = .ok l) :
    l.length ≤ 1 := by
  rcases canonicalizeDecoded_ok_iff.mp h with ⟨_, rfl⟩ | ⟨_, _, _, _, rfl⟩
  · simp
  · simp

theorem mem_canonicalizeDecoded {o : Option ScanView} (h : canonicalizeDecoded u o = .ok l) :
    w ∈ l ↔ ∃ v, o = some v ∧ canonicalize u.nfkc v = .ok w := by
  rcases canonicalizeDecoded_ok_iff.mp h with ⟨rfl, rfl⟩ | ⟨v, x, rfl, hx, rfl⟩
  · simp
  · simp [hx, eq_comm]

theorem length_decodings (h : decodings u view = .ok l) : l.length ≤ 2 := by
  simp only [decodings, bind_ok_iff, Except.ok.injEq] at h
  obtain ⟨_, _, escapes, hescapes, _, _, percent, hpercent, rfl⟩ := h
  have h₁ := length_canonicalizeDecoded hescapes
  have h₂ := length_canonicalizeDecoded hpercent
  rw [List.length_append]
  omega

theorem mem_decodings (h : decodings u view = .ok l) : w ∈ l ↔ Decodes u view w := by
  simp only [decodings, bind_ok_iff, Except.ok.injEq] at h
  obtain ⟨o₁, h₁, escapes, hescapes, o₂, h₂, percent, hpercent, rfl⟩ := h
  rw [List.mem_append, mem_canonicalizeDecoded hescapes, mem_canonicalizeDecoded hpercent, Decodes,
    h₁, h₂]
  simp only [Except.ok.injEq]
  constructor
  · rintro (⟨v, hv, hw⟩ | ⟨v, hv, hw⟩)
    · exact ⟨v, .inl hv, hw⟩
    · exact ⟨v, .inr hv, hw⟩
  · rintro ⟨v, hv | hv, hw⟩
    · exact .inl ⟨v, hv, hw⟩
    · exact .inr ⟨v, hv, hw⟩

theorem decodings_error_iff : (∃ e, decodings u view = .error e) ↔ DecodingFails u view := by
  unfold decodings DecodingFails
  cases h₁ : view.decodeJsonEscapes with
  | error e => simp [error_bind]
  | ok o₁ =>
      cases h₂ : view.decodePercentEncoding with
      | error e =>
          simp only [ok_bind, error_bind]
          cases hescapes : canonicalizeDecoded u o₁ with
          | error e' => simp [error_bind]
          | ok escapes => simp [ok_bind]
      | ok o₂ =>
          have hcanon : ∀ o : Option ScanView, (∃ e, canonicalizeDecoded u o = .error e) ↔
              ∃ v e, o = some v ∧ canonicalize u.nfkc v = .error e := by
            intro o
            cases o with
            | none => simp [canonicalizeDecoded]
            | some v => simp [canonicalizeDecoded, bind_error_iff]
          simp only [ok_bind, reduceCtorEq, exists_false, false_or, Except.ok.injEq]
          constructor
          · rintro ⟨e, h⟩
            rcases bind_error_iff.mp h with h | ⟨escapes, _, h⟩
            · obtain ⟨v, e, hv, he⟩ := (hcanon o₁).mp ⟨e, h⟩
              exact ⟨v, e, .inl hv, he⟩
            · rcases bind_error_iff.mp h with h | ⟨percent, _, h⟩
              · obtain ⟨v, e, hv, he⟩ := (hcanon o₂).mp ⟨e, h⟩
                exact ⟨v, e, .inr hv, he⟩
              · cases h
          · rintro ⟨v, e, hv | hv, he⟩
            · obtain ⟨e, h⟩ := (hcanon o₁).mpr ⟨v, e, hv, he⟩
              exact ⟨e, by rw [h]; rfl⟩
            · obtain ⟨e, h⟩ := (hcanon o₂).mpr ⟨v, e, hv, he⟩
              cases canonicalizeDecoded u o₁ with
              | error e' => exact ⟨e', rfl⟩
              | ok escapes => exact ⟨e, by rw [h]; rfl⟩

theorem Decoded.of_path {n : Nat} (h : SearchPath (decodings u) root n view) : Decoded u root n view := by
  induction h with
  | root => exact .root
  | edge _ hl hw ih => exact .decode ih ((mem_decodings hl).mp hw)

/-- Decodings of views whose decoders succeed are edges of the search. -/
theorem Decoded.path {layers n : Nat} (h : Decoded u root n view) (hn : n ≤ layers)
    (hok : ∀ k v, k < layers → SearchPath (decodings u) root k v → ∃ l, decodings u v = .ok l) :
    SearchPath (decodings u) root n view := by
  induction h with
  | root => exact .root
  | decode _ hw ih =>
      have hpath := ih (Nat.le_of_succ_le hn)
      obtain ⟨l, hl⟩ := hok _ _ hn hpath
      exact .edge hpath hl ((mem_decodings hl).mpr hw)

/-! ## The search -/

/-- The check of the length of a view. -/
def checkLength (bound : Nat) (view : ScanView) : Fallible DetectorError Unit :=
  ensure (len view.text ≤ bound) (.err .normalizationLimit)

/-- The loop is a search without a limit on the number of views, since at most seven are visited. -/
theorem composeFrom_eq {bound fuel : Nat} {queue visited : List (ScanView × Nat)}
    {seen : List ScanView} (hseen : ∀ v, v ∈ seen ↔ v ∈ visited.map Prod.fst)
    (hleft : visited.length + visitsLeft 2 maxDecodeLayers queue ≤ 7) :
    composeFrom u bound fuel queue seen (visited.map Prod.fst)
      = searchFrom (checkLength bound) (decodings u) maxDecodeLayers fuel queue visited := by
  induction fuel generalizing queue visited seen with
  | zero => cases queue <;> rfl
  | succ fuel ih =>
      cases queue with
      | nil => rfl
      | cons q queue =>
          obtain ⟨v, k⟩ := q
          have hpos := treeSize_pos 2 (maxDecodeLayers - k)
          rw [visitsLeft_cons] at hleft
          have hviews : ¬maxRegularViews ≤ (visited.map Prod.fst).length := by
            rw [List.length_map, maxRegularViews]
            omega
          have hseen' : ∀ x, x ∈ v :: seen ↔ x ∈ (visited ++ [(v, k)]).map Prod.fst := fun x => by
            simp [hseen, or_comm]
          have happend : visited.map Prod.fst ++ [v] = (visited ++ [(v, k)]).map Prod.fst := by simp
          simp only [composeFrom, searchFrom, hseen v, hviews, ↓reduceIte]
          split
          · exact ih hseen (by omega)
          by_cases hlen : len v.text ≤ bound
          · have hcheck : checkLength bound v = .ok () := ensure_ok_iff.mpr hlen
            simp only [Nat.not_lt.mpr hlen, ↓reduceIte, hcheck, ok_bind, happend]
            by_cases hk : k < maxDecodeLayers
            · simp only [Nat.not_le.mpr hk, ↓reduceIte, hk]
              cases hnext : decodings u v with
              | error e => rfl
              | ok l =>
                  have := visitsLeft_expand (length_decodings hnext) hk queue
                  simp only [ok_bind]
                  exact ih hseen' (by rw [List.length_append, List.length_singleton]; omega)
            · simp only [Nat.not_lt.mp hk, ↓reduceIte, hk, List.map_nil, List.append_nil]
              exact ih hseen' (by rw [List.length_append, List.length_singleton]; omega)
          · have hcheck : checkLength bound v = err .normalizationLimit := by
              simp [checkLength, ensure, hlen, err]
            simp only [Nat.not_le.mp hlen, ↓reduceIte, hcheck]
            rfl

theorem composedViews_eq (u : Unicode) (root : ScanView) :
    composedViews u root = search (checkLength (max (root.sourceByByte.length * 4) 4)) (decodings u)
      maxDecodeLayers 2 root :=
  @composeFrom_eq u (max (root.sourceByByte.length * 4) 4) 7 [(root, 0)] [] [] (by simp)
    (Nat.le_refl _)

theorem decoded_composedViews {u : Unicode} {root : ScanView} {views : List ScanView}
    (h : composedViews u root = .ok views) {v : ScanView} (hv : v ∈ views) :
    ∃ n, Decoded u root n v := by
  have hb : ∀ v l, decodings u v = .ok l → l.length ≤ 2 := fun _ _ => length_decodings
  rw [composedViews_eq] at h
  obtain ⟨n, _, path⟩ := ((search_ok hb h).2.2.1 v).mp hv
  exact ⟨n, .of_path path⟩

/-- The composed views are every view that at most two decodings of the root give, each once, so
that there are at most seven; and composing fails exactly when one of these decodings fails or gives
a view that is too long. -/
theorem composedViews_complete (u : Unicode) (root : ScanView) :
    composedViews u root = search (checkLength (max (root.sourceByByte.length * 4) 4)) (decodings u)
      maxDecodeLayers 2 root ∧
    (∀ views, composedViews u root = .ok views → views.Nodup ∧ views.length ≤ 7 ∧
      (∀ v ∈ views, len v.text ≤ max (root.sourceByByte.length * 4) 4) ∧
      ∀ v, v ∈ views ↔ ∃ n ≤ maxDecodeLayers, Decoded u root n v) ∧
    ((∃ e, composedViews u root = .error e) ↔
      (∃ n v, n < maxDecodeLayers ∧ Decoded u root n v ∧ DecodingFails u v) ∨
      ∃ n v, n ≤ maxDecodeLayers ∧ Decoded u root n v ∧
        max (root.sourceByByte.length * 4) 4 < len v.text) := by
  have hb : ∀ v l, decodings u v = .ok l → l.length ≤ 2 := fun _ _ => length_decodings
  rw [composedViews_eq]
  refine ⟨rfl, fun views h => ?_, ⟨fun ⟨e, h⟩ => ?_, fun h => ?_⟩⟩
  · obtain ⟨hnodup, hlen, hmem, hcheck, hnext⟩ := search_ok hb h
    refine ⟨hnodup, hlen, fun v hv => ?_, fun v => (hmem v).trans ⟨?_, ?_⟩⟩
    · obtain ⟨n, hn, hp⟩ := (hmem v).mp hv
      exact ensure_ok_iff.mp (hcheck n v hn hp)
    · exact fun ⟨n, hn, hp⟩ => ⟨n, hn, .of_path hp⟩
    · exact fun ⟨n, hn, hd⟩ => ⟨n, hn, hd.path hn hnext⟩
  · obtain ⟨n, v, hn, hp, hcheck | ⟨hlt, hnext⟩⟩ := search_error hb h
    · refine .inr ⟨n, v, hn, .of_path hp, ?_⟩
      by_contra hle
      have : checkLength (max (root.sourceByByte.length * 4) 4) v = .ok () :=
        ensure_ok_iff.mpr (Nat.not_lt.mp hle)
      rw [this] at hcheck
      cases hcheck
    · exact .inl ⟨n, v, hlt, .of_path hp, decodings_error_iff.mp ⟨e, hnext⟩⟩
  · -- a search that succeeds has decoded everything and found nothing too long
    cases hs : search (checkLength (max (root.sourceByByte.length * 4) 4)) (decodings u)
        maxDecodeLayers 2 root with
    | error e => exact ⟨e, rfl⟩
    | ok views =>
        obtain ⟨_, _, _, hcheck, hnext⟩ := search_ok hb hs
        rcases h with ⟨n, v, hn, hd, hfail⟩ | ⟨n, v, hn, hd, hlong⟩
        · obtain ⟨l, hl⟩ := hnext n v hn (hd.path (Nat.le_of_lt hn) hnext)
          obtain ⟨e, he⟩ := decodings_error_iff.mpr hfail
          rw [hl] at he
          cases he
        · have := ensure_ok_iff.mp (hcheck n v hn (hd.path hn hnext))
          omega

/-- Both orders of the two decodings give the same view, once. -/
example : (composedViews Unicode.ascii (distinctView "\\u0025%34%31".toList)).map (·.length)
    = .ok 4 := by
  decide

end ScanView

end AgentVeil
