import AgentVeil.Detector.Scanner

/-!
# Dotted quads

The address pattern matches four groups of digits at a time. In a chain of groups joined by dots the
matches are the quads that begin at a multiple of four groups: the others overlap one of those.
-/

namespace AgentVeil

open Rust Rust.Regex

/-- One to three digits. -/
structure Octet (g : Str) : Prop where
  pos : g ≠ []
  length : g.length ≤ 3
  digits : ∀ c ∈ g, isAsciiDigit c = true

/-- The groups, each with its dot. -/
def dotted (gs : List Str) : Str := gs.flatMap (· ++ ['.'])

@[simp] theorem dotted_nil : dotted [] = [] := rfl

@[simp] theorem dotted_cons (g : Str) (gs : List Str) : dotted (g :: gs) = g ++ '.' :: dotted gs := by
  simp [dotted]

@[simp] theorem dotted_append (gs hs : List Str) : dotted (gs ++ hs) = dotted gs ++ dotted hs := by
  simp [dotted]

/-- The text ends in a word character. -/
def EndsWord (a : Str) : Prop := a.getLast?.any isAsciiWord = true

def StartsWord (b : Str) : Prop := b.head?.any isAsciiWord = true

instance (g : Str) : Decidable (Octet g) :=
  have : Decidable (∀ c ∈ g, isAsciiDigit c = true) := List.decidableBAll _ _
  decidable_of_iff (g ≠ [] ∧ g.length ≤ 3 ∧ ∀ c ∈ g, isAsciiDigit c = true)
    ⟨fun ⟨h₁, h₂, h₃⟩ => ⟨h₁, h₂, h₃⟩, fun ⟨h₁, h₂, h₃⟩ => ⟨h₁, h₂, h₃⟩⟩

instance (a : Str) : Decidable (EndsWord a) := inferInstanceAs (Decidable (_ = _))

instance (b : Str) : Decidable (StartsWord b) := inferInstanceAs (Decidable (_ = _))

/-- Four groups joined by dots, between word boundaries. -/
structure DottedQuad (a t b : Str) : Prop where
  groups : ∃ gs g, t = dotted gs ++ g ∧ gs.length = 3 ∧ (∀ o ∈ gs, Octet o) ∧ Octet g
  left : ¬EndsWord a
  right : ¬StartsWord b

theorem isAsciiWord_digit {c : Char} (h : isAsciiDigit c = true) : isAsciiWord c = true := by
  simp [isAsciiWord, isAsciiAlphanumeric, h]

theorem Octet.head {g : Str} (h : Octet g) : ∃ c g', g = c :: g' ∧ isAsciiWord c = true := by
  obtain ⟨c, g', rfl⟩ := List.exists_cons_of_ne_nil h.pos
  exact ⟨c, g', rfl, isAsciiWord_digit (h.digits c List.mem_cons_self)⟩

theorem Octet.last {g : Str} (h : Octet g) : ∃ g' c, g = g' ++ [c] ∧ isAsciiWord c = true := by
  obtain ⟨g', c, rfl⟩ := List.eq_nil_or_concat g |>.resolve_left h.pos
  exact ⟨g', c, by simp, isAsciiWord_digit (h.digits c (by simp))⟩

theorem endsWord_append (a : Str) {c : Char} : EndsWord (a ++ [c]) ↔ isAsciiWord c = true := by
  simp [EndsWord]

theorem not_endsWord_dot (a : Str) : ¬EndsWord (a ++ ['.']) := by
  rw [endsWord_append]
  decide

/-! ## The pattern -/

theorem derives_octet {b : List Char} {m a : Str} :
    Derives (many (one isAsciiDigit) 1 (some 3)) b m a ↔ Octet m := by
  rw [derives_many_one]
  constructor
  · rintro ⟨h₁, h₃, hd⟩
    exact ⟨List.length_pos_iff.mp h₁, h₃ 3 rfl, hd⟩
  · rintro ⟨h₁, h₃, hd⟩
    exact ⟨List.length_pos_iff.mpr h₁, fun _ hk => Option.some.inj hk ▸ h₃, hd⟩

theorem derives_groups {n : Nat} {b : List Char} {m a : Str} :
    Derives (many (cat [many (one isAsciiDigit) 1 (some 3), lit ".".toList]) n (some n)) b m a ↔
      ∃ gs, m = dotted gs ∧ gs.length = n ∧ ∀ o ∈ gs, Octet o := by
  induction n generalizing b m with
  | zero =>
      constructor
      · intro h
        cases h with
        | stop => exact ⟨[], rfl, rfl, by simp⟩
        | more hhi _ _ _ => exact absurd rfl hhi
      · rintro ⟨gs, rfl, hlen, _⟩
        obtain rfl := List.length_eq_zero_iff.mp hlen
        exact .stop
  | succ n ih =>
      constructor
      · intro h
        cases h with
        | more _ _ h₁ h₂ =>
            obtain ⟨o, dot, rfl, ho, hdot⟩ := derives_seq.mp h₁
            obtain rfl := derives_lit.mp hdot
            obtain ⟨gs, rfl, hlen, hgs⟩ := ih.mp h₂
            exact ⟨o :: gs, by simp, by simp [hlen],
              List.forall_mem_cons.mpr ⟨derives_octet.mp ho, hgs⟩⟩
      · rintro ⟨gs, rfl, hlen, hgs⟩
        obtain ⟨o, gs, rfl⟩ := List.exists_cons_of_length_eq_add_one hlen
        obtain ⟨ho, hgs⟩ := List.forall_mem_cons.mp hgs
        have hfirst : Derives (cat [many (one isAsciiDigit) 1 (some 3), lit ".".toList]) b
            (o ++ ".".toList) (dotted gs ++ a) :=
          derives_seq.mpr ⟨o, _, rfl, derives_octet.mpr ho, derives_lit.mpr rfl⟩
        have hall : Derives (.many (cat [many (one isAsciiDigit) 1 (some 3), lit ".".toList])
            (n + 1) (some (n + 1))) b ((o ++ ".".toList) ++ dotted gs) a :=
          .more (by simp) (by simp) hfirst (ih.mpr ⟨gs, rfl, by simpa using hlen, hgs⟩)
        simpa using hall

theorem derives_privateIpv4 {a t b : Str} :
    Derives privateIpv4Pattern a.reverse t b ↔ DottedQuad a t b := by
  have hbefore : (a.reverse.head?.any isAsciiWord = false) ↔ ¬EndsWord a := by
    rw [EndsWord, List.head?_reverse, Bool.not_eq_true]
  have hafter : (b.head?.any isAsciiWord = false) ↔ ¬StartsWord b := by
    rw [StartsWord, Bool.not_eq_true]
  -- the quad begins and ends in a digit
  have hfirst : ∀ {gs : List Str} {m : Str}, gs.length = 3 → (∀ o ∈ gs, Octet o) →
      (dotted gs ++ m).head?.any isAsciiWord = true := by
    intro gs m hlen hgs
    obtain ⟨o, gs, rfl⟩ := List.exists_cons_of_length_eq_add_one hlen
    obtain ⟨c, o', rfl, hc⟩ := (hgs o List.mem_cons_self).head
    simpa using hc
  have hlast : ∀ {g m : Str}, Octet g → (g.reverse ++ m).head?.any isAsciiWord = true := by
    intro g m hg
    obtain ⟨g', c, rfl, hc⟩ := hg.last
    simpa using hc
  constructor
  · intro h
    obtain ⟨_, m, rfl, hlook, hcat⟩ := derives_seq.mp h
    obtain ⟨rfl, hleft⟩ := derives_look.mp hlook
    obtain ⟨_, m, rfl, hgroups, hcat⟩ := derives_seq.mp hcat
    obtain ⟨gs, rfl, hlen, hgs⟩ := derives_groups.mp hgroups
    obtain ⟨g, _, rfl, hoctet, hlook⟩ := derives_seq.mp hcat
    obtain ⟨rfl, hright⟩ := derives_look.mp hlook
    have hg := derives_octet.mp hoctet
    rw [List.append_assoc, hfirst hlen hgs] at hleft
    rw [hlast hg] at hright
    exact ⟨⟨gs, g, by simp, hlen, hgs, hg⟩, hbefore.mp (by simpa using hleft),
      hafter.mp (by simpa using hright)⟩
  · rintro ⟨⟨gs, g, rfl, hlen, hgs, hg⟩, hleft, hright⟩
    have hstart : Derives (wordBoundary isAsciiWord) a.reverse [] ((dotted gs ++ (g ++ [])) ++ b) := by
      refine derives_look.mpr ⟨rfl, ?_⟩
      rw [hbefore.mpr hleft, List.append_assoc, hfirst hlen hgs]
      rfl
    have hstop : Derives (wordBoundary isAsciiWord)
        (g.reverse ++ ((dotted gs).reverse ++ a.reverse)) [] b := by
      refine derives_look.mpr ⟨rfl, ?_⟩
      rw [hlast hg, hafter.mpr hright]
      rfl
    have hoctet := Derives.seq (derives_octet.mpr hg) hstop
    have hgroups := Derives.seq (derives_groups.mpr ⟨gs, rfl, hlen, hgs⟩) hoctet
    have hall := Derives.seq hstart hgroups
    simpa [privateIpv4Pattern, cat] using hall

theorem nonEmpty_privateIpv4 : NonEmpty privateIpv4Pattern :=
  nonEmpty_of_minLength (by decide)

/-! ## Chains -/

/-- `k` groups joined by dots lead up to the end of the text, and no more. -/
inductive Lead : Str → Nat → Prop where
  | start {a} : (∀ p g, Octet g → ¬EndsWord p → a ≠ p ++ g ++ ['.']) → Lead a 0
  | group {p g k} : Octet g → ¬EndsWord p → Lead p k → Lead (p ++ g ++ ['.']) (k + 1)

theorem exists_lead (a : Str) : ∃ k, Lead a k := by
  induction hn : a.length using Nat.strong_induction_on generalizing a with
  | _ n ih =>
      by_cases h : ∃ p g, Octet g ∧ ¬EndsWord p ∧ a = p ++ g ++ ['.']
      · obtain ⟨p, g, hg, hp, rfl⟩ := h
        obtain ⟨k, hk⟩ := ih p.length (by simp at hn; omega) p rfl
        exact ⟨k + 1, .group hg hp hk⟩
      · refine ⟨0, .start fun p g hg hp he => h ⟨p, g, hg, hp, he⟩⟩

/-- The last group of a text is determined. -/
theorem last_group_unique {p g p' g' : Str} (hg : Octet g) (hg' : Octet g') (hp : ¬EndsWord p)
    (hp' : ¬EndsWord p') (he : p ++ g = p' ++ g') : p = p' ∧ g = g' := by
  -- a longer part before the group would end in one of its digits
  have hlonger : ∀ {m h h' q : Str}, Octet h' → ¬EndsWord (q ++ m) → h' = m ++ h → m = [] := by
    intro m h h' q hh' hq heq
    rcases List.eq_nil_or_concat m with rfl | ⟨m', c, rfl⟩
    · rfl
    · rw [List.concat_eq_append, ← List.append_assoc, endsWord_append] at hq
      exact absurd (isAsciiWord_digit (hh'.digits c (by simp [heq]))) hq
  rcases List.append_eq_append_iff.mp he with ⟨m, rfl, hm⟩ | ⟨m, rfl, hm⟩
  · obtain rfl := hlonger hg hp' hm
    exact ⟨by simp, by simpa using hm⟩
  · obtain rfl := hlonger hg' hp hm
    exact ⟨by simp, by simpa using hm.symm⟩

theorem Lead.unique {a : Str} {k j : Nat} (h : Lead a k) (h' : Lead a j) : k = j := by
  induction h generalizing j with
  | start hnone =>
      cases h' with
      | start _ => rfl
      | group hg hp _ => exact absurd rfl (hnone _ _ hg hp)
  | group hg hp _ ih =>
      generalize ha : _ ++ _ ++ ['.'] = a at h'
      cases h' with
      | start hnone => exact absurd ha.symm (hnone _ _ hg hp)
      | group hg' hp' hk =>
          obtain ⟨rfl, rfl⟩ := last_group_unique hg hg' hp hp' (List.append_cancel_right ha)
          rw [ih hk]

/-- Groups lengthen the chain. -/
theorem Lead.dotted {a : Str} {k : Nat} (h : Lead a k) (ha : ¬EndsWord a) {gs : List Str}
    (hgs : ∀ o ∈ gs, Octet o) : Lead (a ++ dotted gs) (k + gs.length) := by
  induction gs generalizing a k with
  | nil => simpa using h
  | cons g gs ih =>
      obtain ⟨hg, hgs⟩ := List.forall_mem_cons.mp hgs
      have := ih (.group hg ha h) (not_endsWord_dot _) hgs
      simpa [Nat.add_assoc, Nat.add_comm 1] using this

/-- A chain can be cut anywhere. -/
theorem Lead.cut {a : Str} {k r : Nat} (h : Lead a k) (ha : ¬EndsWord a) (hr : r ≤ k) :
    ∃ p gs, a = p ++ AgentVeil.dotted gs ∧ gs.length = r ∧ (∀ o ∈ gs, Octet o) ∧ ¬EndsWord p ∧
      Lead p (k - r) := by
  induction r generalizing a k with
  | zero => exact ⟨a, [], by simp, rfl, by simp, ha, h⟩
  | succ r ih =>
      cases h with
      | start _ => omega
      | @group p g k hg hp hk =>
          obtain ⟨p', gs, rfl, hlen, hgs, hp', hk'⟩ := ih hk hp (by omega)
          refine ⟨p', gs ++ [g], by simp, by simp [hlen], ?_, hp', by rwa [Nat.add_sub_add_right]⟩
          intro o ho
          rcases List.mem_append.mp ho with ho | ho
          · exact hgs o ho
          · rw [List.mem_singleton.mp ho]
            exact hg

/-- A group has no part that ends in another character than a digit. -/
theorem Octet.ne_append {o x m : Str} (ho : Octet o) (hx : x ≠ []) (hend : ¬EndsWord x) :
    o ≠ x ++ m := by
  intro heq
  obtain ⟨x', c, rfl⟩ := List.eq_nil_or_concat x |>.resolve_left hx
  rw [List.concat_eq_append] at hend heq
  exact hend ((endsWord_append x').mpr (isAsciiWord_digit (ho.digits c (by simp [heq]))))

theorem endsWord_of_append {x y : Str} (hy : y ≠ []) (h : EndsWord y) : EndsWord (x ++ y) := by
  obtain ⟨y', c, rfl⟩ := List.eq_nil_or_concat y |>.resolve_left hy
  rw [List.concat_eq_append, endsWord_append] at h
  rw [List.concat_eq_append, ← List.append_assoc, endsWord_append]
  exact h

/-- A part of a quad that does not end in a word character ends with one of its dots. -/
theorem dotted_prefix {gs : List Str} {g x y : Str} (hgs : ∀ o ∈ gs, Octet o) (hg : Octet g)
    (hx : x ≠ []) (hend : ¬EndsWord x) (he : dotted gs ++ g = x ++ y) :
    ∃ hs hs', gs = hs ++ hs' ∧ hs ≠ [] ∧ x = dotted hs := by
  induction gs generalizing x with
  | nil => exact absurd he (hg.ne_append hx hend)
  | cons o gs ih =>
      obtain ⟨ho, hgs⟩ := List.forall_mem_cons.mp hgs
      rw [dotted_cons, List.append_assoc] at he
      rcases List.append_eq_append_iff.mp he with ⟨m, rfl, hm⟩ | ⟨m, heq, _⟩
      · cases m with
        | nil =>
            rw [List.append_nil] at hx hend
            exact absurd (List.append_nil o).symm (ho.ne_append hx hend)
        | cons c m =>
            rw [List.cons_append, List.cons_append] at hm
            obtain ⟨rfl, htail⟩ := List.cons.inj hm
            by_cases hmne : m = []
            · subst hmne
              exact ⟨[o], gs, rfl, by simp, by simp⟩
            · have hmend : ¬EndsWord m := fun h => hend (by
                have := endsWord_of_append (x := o ++ ['.']) hmne h
                simpa using this)
              obtain ⟨hs, hs', rfl, hne, rfl⟩ := ih hgs hmne hmend htail
              exact ⟨o :: hs, hs', rfl, by simp, by simp⟩
      · exact absurd heq (ho.ne_append hx hend)

/-! ## Aligned quads -/

/-- A quad that begins inside another begins after one to three of its groups. -/
theorem DottedQuad.after {a t b a' t' b' : Str} (h : DottedQuad a t b) (h' : DottedQuad a' t' b')
    (he : a ++ t ++ b = a' ++ t' ++ b') (hlt : a.length < a'.length)
    (hin : a'.length < a.length + t.length) :
    ∃ gs, a' = a ++ dotted gs ∧ 1 ≤ gs.length ∧ gs.length ≤ 3 ∧ ∀ o ∈ gs, Octet o := by
  obtain ⟨gs, g, rfl, hlen, hgs, hg⟩ := h.groups
  rw [List.append_assoc, List.append_assoc a'] at he
  rcases List.append_eq_append_iff.mp he with ⟨x, rfl, hx⟩ | ⟨x, rfl, _⟩
  swap
  · rw [List.length_append] at hlt
    omega
  have hxne : x ≠ [] := by rintro rfl; simp at hlt
  have hxend : ¬EndsWord x := fun hend => h'.left (endsWord_of_append hxne hend)
  rcases List.append_eq_append_iff.mp hx with ⟨y, hy, _⟩ | ⟨y, hy, _⟩
  · rw [hy] at hin
    simp only [List.length_append] at hin
    omega
  · obtain ⟨hs, hs', rfl, hne, rfl⟩ := dotted_prefix hgs hg hxne hxend hy
    rw [List.length_append] at hlen
    exact ⟨hs, rfl, List.length_pos_iff.mpr hne, by omega, fun o ho => hgs o (by simp [ho])⟩

/-- One to three groups earlier in the chain there is a quad that overlaps this one. -/
theorem DottedQuad.back {a t b : Str} (h : DottedQuad a t b) {k r : Nat} (hk : Lead a k)
    (hpos : 1 ≤ r) (hr : r ≤ 3) (hrk : r ≤ k) : ∃ p t' b', DottedQuad p t' b' ∧
      a ++ t ++ b = p ++ t' ++ b' ∧ Lead p (k - r) ∧ p.length < a.length ∧
      a.length < p.length + t'.length := by
  obtain ⟨gs, g, rfl, hlen, hgs, hg⟩ := h.groups
  obtain ⟨p, hs, rfl, hhs, hoctets, hp, hlead⟩ := hk.cut h.left hrk
  -- the last group of the earlier quad is one of the first three here
  obtain ⟨gs₁, o, gs₂, rfl, hlen₁⟩ : ∃ gs₁ o gs₂, gs = gs₁ ++ o :: gs₂ ∧ gs₁.length = 3 - r := by
    refine ⟨gs.take (3 - r), gs[3 - r], gs.drop (3 - r + 1), ?_, by simp; omega⟩
    rw [List.getElem_cons_drop, List.take_append_drop]
  have ho : Octet o := hgs o (by simp)
  have hpos' := List.length_pos_iff.mpr ho.pos
  have hhsne : 0 < (dotted hs).length := by
    obtain ⟨x, hs, rfl⟩ := List.exists_cons_of_length_pos (show 0 < hs.length by omega)
    simp only [dotted_cons, List.length_append, List.length_cons]
    omega
  refine ⟨p, dotted (hs ++ gs₁) ++ o, '.' :: (dotted gs₂ ++ g ++ b),
    ⟨⟨hs ++ gs₁, o, rfl, by simp; omega, ?_, ho⟩, hp, by simp [StartsWord]; decide⟩,
    by simp, hlead, by simp; omega, by simp; omega⟩
  intro x hx
  rcases List.mem_append.mp hx with hx | hx
  · exact hoctets x hx
  · exact hgs x (by simp [hx])

/-- The text of a quad is determined by where it begins. -/
theorem DottedQuad.unique {a t b t' b' : Str} (h : DottedQuad a t b) (h' : DottedQuad a t' b')
    (he : t ++ b = t' ++ b') : t = t' := by
  have hcount : ∀ {t b : Str}, DottedQuad a t b → t.count '.' = 3 := by
    intro t b h
    obtain ⟨gs, g, rfl, hlen, hgs, hg⟩ := h.groups
    have hnone : ∀ {o : Str}, Octet o → o.count '.' = 0 := fun ho =>
      List.count_eq_zero.mpr fun hdot => absurd (ho.digits _ hdot) (by decide)
    have hdots : ∀ {gs : List Str}, (∀ o ∈ gs, Octet o) → (dotted gs).count '.' = gs.length := by
      intro gs hgs
      induction gs with
      | nil => rfl
      | cons o gs ih =>
          obtain ⟨ho, hgs⟩ := List.forall_mem_cons.mp hgs
          simp [hnone ho, ih hgs]
    rw [List.count_append, hdots hgs, hnone hg, hlen]
  -- what one quad has more is a digit, but begins as the text after the other
  have hshort : ∀ {t m b b' : Str}, DottedQuad a t b → DottedQuad a (t ++ m) b' → b = m ++ b' →
      m = [] := by
    intro t m b b' h h' hb
    have hdots : m.count '.' = 0 := by
      have := hcount h'
      rw [List.count_append, hcount h] at this
      omega
    cases m with
    | nil => rfl
    | cons c m =>
        obtain ⟨gs, g, ht, _, hgs, hg⟩ := h'.groups
        have hc : c ∈ dotted gs ++ g := ht ▸ List.mem_append_right _ List.mem_cons_self
        have hnotdot : c ≠ '.' := fun hc => by simp [hc] at hdots
        have hdigit : isAsciiDigit c = true := by
          rcases List.mem_append.mp hc with hc | hc
          · obtain ⟨o, ho, hc⟩ := List.mem_flatMap.mp hc
            rcases List.mem_append.mp hc with hc | hc
            · exact (hgs o ho).digits c hc
            · exact absurd (List.mem_singleton.mp hc) hnotdot
          · exact hg.digits c hc
        exact absurd (by rw [hb]; simpa [StartsWord] using isAsciiWord_digit hdigit) h.right
  rcases List.append_eq_append_iff.mp he with ⟨m, rfl, hb⟩ | ⟨m, rfl, hb⟩
  · rw [hshort h h' hb, List.append_nil]
  · rw [hshort h' h hb, List.append_nil]

/-- The quad is the first of its chain, or the chain before it has a multiple of four groups. -/
def Aligned (a : Str) : Prop := ∃ k, Lead a (4 * k)

/-- The matches of the address pattern. -/
theorem findIter_aligned {text a t b : Str} {k : Nat} (htext : text = a ++ t ++ b)
    (h : DottedQuad a t b) (hk : Lead a k) :
    (∃ m ∈ findIter privateIpv4Pattern text, m.before.reverse = a) ↔ 4 ∣ k := by
  induction hn : a.length using Nat.strong_induction_on generalizing a t b k with
  | _ n ih =>
      subst hn
      have hquad : ∀ m ∈ findIter privateIpv4Pattern text, text = m.before.reverse ++ m.text ++ m.after ∧
          DottedQuad m.before.reverse m.text m.after := by
        intro m hm
        obtain ⟨hs, hd⟩ := mem_findIter hm
        exact ⟨hs, derives_privateIpv4.mp (by rwa [List.reverse_reverse])⟩
      constructor
      · rintro ⟨m, hm, rfl⟩
        by_contra hnot
        obtain ⟨p, t', b', hp, he, hlead, hlt, hin⟩ := h.back hk (r := k % 4) (by omega) (by omega)
          (Nat.mod_le _ _)
        obtain ⟨m', hm', rfl⟩ := (ih _ hlt (htext.trans he) hp hlead rfl).mpr (by omega)
        obtain ⟨hs', hq'⟩ := hquad m' hm'
        have ht : m'.text = t' := hq'.unique hp (by
          have := hs'.symm.trans (htext.trans he)
          simpa using this)
        rw [← ht] at hin
        simp only [List.length_reverse] at hlt hin
        rcases findIter_disjoint nonEmpty_privateIpv4 hm hm' with rfl | hle | hle <;> omega
      · intro hdvd
        obtain ⟨m, hm, hle, hlt⟩ := findIter_covers nonEmpty_privateIpv4 (derives_privateIpv4.mpr h)
        rw [← htext] at hm
        obtain ⟨hs, hq⟩ := hquad m hm
        rcases Nat.lt_or_eq_of_le hle with hbefore | hsame
        · obtain ⟨gs, rfl, hone, hthree, hgs⟩ := hq.after h (hs.symm.trans htext)
            (by simpa using hbefore) (by simpa using hlt)
          obtain ⟨j, hj⟩ := exists_lead m.before.reverse
          have hsum := hk.unique (hj.dotted hq.left hgs)
          have := (ih _ (by simpa using hbefore) hs hq hj rfl).mp ⟨m, hm, rfl⟩
          omega
        · refine ⟨m, hm, ?_⟩
          have := hs.symm.trans htext
          rw [List.append_assoc, List.append_assoc] at this
          exact (List.append_inj this (by simpa using hsame)).1

end AgentVeil
