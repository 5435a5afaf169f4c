import AgentVeil.Rust.Text

/-!
# Regular expressions with leftmost-first matching

The semantics of `regex::Regex`. `run` lists the ways to match in order of preference (the left
branch of an alternation first, repetitions as long as possible), a search takes the first way at
the first position that has one, and `findIter` continues after each match. `Derives` says what a
pattern matches, in a context, without the order. The body of a repetition is assumed to match no
empty text.
-/

namespace AgentVeil.Rust

/-- A pattern over characters. -/
inductive Regex where
  | eps
  | one (p : Char → Bool)
  | seq (r s : Regex)
  | alt (r s : Regex)
  /-- `r{lo,hi}`, greedy; `none` is no upper bound. -/
  | many (r : Regex) (lo : Nat) (hi : Option Nat)
  /-- An assertion about the characters before and after the position. -/
  | look (p : Option Char → Option Char → Bool)
  /-- The capture group. -/
  | group (r : Regex)

/-- A part of a text: the text before it, last character first, itself, and the text after it. -/
structure Part where
  before : List Char
  text : Str
  after : Str

namespace Part

def start (m : Part) : Nat := len m.before
def range (m : Part) : Span := ⟨m.start, m.start + len m.text⟩
def whole (m : Part) : Str := m.before.reverse ++ m.text ++ m.after

end Part

/-- A match and the text of its capture group. -/
structure Match extends Part where
  group : Option Part

namespace Regex

/-- The state of the matcher: the text before the position, last character first, the text after
it, and the capture. -/
structure Cursor where
  before : List Char
  after : Str
  group : Option Part

/-- A greedy repetition of `step`; `fuel` bounds the iterations by the text left. -/
def repeatFrom (step : Cursor → List Cursor) : Nat → Nat → Option Nat → Cursor → List Cursor
  | 0, lo, _, c => if lo = 0 then [c] else []
  | fuel + 1, lo, hi, c =>
      if hi = some 0 then (if lo = 0 then [c] else [])
      else
        ((step c).filter fun d => d.after.length < c.after.length).flatMap
            (repeatFrom step fuel (lo - 1) (hi.map (· - 1)))
          ++ (if lo = 0 then [c] else [])

/-- The ways to match at a cursor, the preferred one first. -/
def run : Regex → Cursor → List Cursor
  | eps, c => [c]
  | one p, c =>
      match c.after with
      | [] => []
      | x :: s => if p x then [⟨x :: c.before, s, c.group⟩] else []
  | seq r s, c => (run r c).flatMap (run s)
  | alt r s, c => run r c ++ run s c
  | many r lo hi, c => repeatFrom (run r) c.after.length lo hi c
  | look p, c => if p c.before.head? c.after.head? then [c] else []
  | group r, c =>
      (run r c).map fun d =>
        { d with group := some ⟨c.before, c.after.take (c.after.length - d.after.length), d.after⟩ }

/-- The match at one position. -/
def matchAt (r : Regex) (before : List Char) (after : Str) : Option Match :=
  (run r ⟨before, after, none⟩).head?.map fun c =>
    ⟨⟨before, after.take (after.length - c.after.length), c.after⟩, c.group⟩

/-- The search of `find_iter`; `skip` characters are still inside the last match. -/
def findFrom (r : Regex) : Nat → List Char → Str → List Match
  | _, _, [] => []
  | skip + 1, before, x :: s => findFrom r skip (x :: before) s
  | 0, before, x :: s =>
      match matchAt r before (x :: s) with
      | none => findFrom r 0 (x :: before) s
      | some m => m :: findFrom r (m.text.length - 1) (x :: before) s

/-- `Regex::find_iter` and `Regex::captures_iter`, for a pattern that matches no empty text. -/
def findIter (r : Regex) (s : Str) : List Match := findFrom r 0 [] s

/-! ## Patterns -/

/-- A literal text. -/
def lit : Str → Regex
  | [] => eps
  | c :: s => seq (one (· = c)) (lit s)

/-- An alternation of patterns, the first preferred. -/
def anyOf : List Regex → Regex
  | [] => one fun _ => false
  | [r] => r
  | r :: s :: rs => alt r (anyOf (s :: rs))

/-- A sequence of patterns. -/
def cat : List Regex → Regex
  | [] => eps
  | [r] => r
  | r :: s :: rs => seq r (cat (s :: rs))

/-- `r?` -/
def opt (r : Regex) : Regex := many r 0 (some 1)

/-- `[p]*` -/
def star (p : Char → Bool) : Regex := many (one p) 0 none

/-- `[p]+` -/
def plus (p : Char → Bool) : Regex := many (one p) 1 none

/-- `[p]{n,}` -/
def atLeast (p : Char → Bool) (n : Nat) : Regex := many (one p) n none

/-- `[p]{n}` -/
def exactly (p : Char → Bool) (n : Nat) : Regex := many (one p) n (some n)

/-- A class of ASCII characters under `(?i-u:)`. -/
def asciiCaseless (p : Char → Bool) (c : Char) : Bool :=
  p c || p (toAsciiLowercase c) || p (toAsciiUppercase c)

/-- A class of ASCII characters under `(?i:)`: simple case folding adds U+017F and U+212A. -/
def caseless (p : Char → Bool) (c : Char) : Bool :=
  asciiCaseless p c || (c.toNat = 0x17F && asciiCaseless p 's')
    || (c.toNat = 0x212A && asciiCaseless p 'k')

/-- A literal text under a case-insensitive flag. -/
def litBy (fold : (Char → Bool) → Char → Bool) : Str → Regex
  | [] => eps
  | c :: s => seq (one (fold (· = c))) (litBy fold s)

/-- `\b`, for a class of word characters. -/
def wordBoundary (word : Char → Bool) : Regex :=
  look fun p n => (p.any word) != (n.any word)

/-- `^` under `(?m)`. -/
def lineStart : Regex := look fun p _ => p = none || p = some '\n'

/-- `[A-Za-z0-9_]`, the ASCII `\w`. -/
def isAsciiWord (c : Char) : Bool := isAsciiAlphanumeric c || c = '_'

/-! ## What a pattern matches -/

/-- The pattern matches `mid` between the text `before` it, last character first, and `after` it. -/
inductive Derives : Regex → List Char → Str → Str → Prop where
  | eps {b a} : Derives eps b [] a
  | one {p x b a} : p x = true → Derives (one p) b [x] a
  | seq {r s b m n a} : Derives r b m (n ++ a) → Derives s (m.reverse ++ b) n a →
      Derives (seq r s) b (m ++ n) a
  | altL {r s b m a} : Derives r b m a → Derives (alt r s) b m a
  | altR {r s b m a} : Derives s b m a → Derives (alt r s) b m a
  | stop {r hi b a} : Derives (many r 0 hi) b [] a
  | more {r lo hi b m n a} : hi ≠ some 0 → m ≠ [] → Derives r b m (n ++ a) →
      Derives (many r (lo - 1) (hi.map (· - 1))) (m.reverse ++ b) n a →
      Derives (many r lo hi) b (m ++ n) a
  | look {p b a} : p b.head? a.head? = true → Derives (look p) b [] a
  | group {r b m a} : Derives r b m a → Derives (group r) b m a

theorem derives_seq {r s : Regex} {b : List Char} {m a : Str} :
    Derives (seq r s) b m a ↔
      ∃ m₁ m₂, m = m₁ ++ m₂ ∧ Derives r b m₁ (m₂ ++ a) ∧ Derives s (m₁.reverse ++ b) m₂ a := by
  constructor
  · rintro ⟨⟩; exact ⟨_, _, rfl, ‹_›, ‹_›⟩
  · rintro ⟨_, _, rfl, h₁, h₂⟩; exact .seq h₁ h₂

theorem derives_alt {r s : Regex} {b : List Char} {m a : Str} :
    Derives (alt r s) b m a ↔ Derives r b m a ∨ Derives s b m a := by
  constructor
  · rintro (⟨⟩ | ⟨⟩)
    · exact .inl ‹_›
    · exact .inr ‹_›
  · rintro (h | h)
    · exact .altL h
    · exact .altR h

theorem derives_one {p : Char → Bool} {b : List Char} {m a : Str} :
    Derives (one p) b m a ↔ ∃ x, m = [x] ∧ p x = true := by
  constructor
  · rintro ⟨⟩; exact ⟨_, rfl, ‹_›⟩
  · rintro ⟨x, rfl, h⟩; exact .one h

theorem derives_eps {b : List Char} {m a : Str} : Derives eps b m a ↔ m = [] := by
  constructor
  · rintro ⟨⟩; rfl
  · rintro rfl; exact .eps

theorem derives_look {p : Option Char → Option Char → Bool} {b : List Char} {m a : Str} :
    Derives (look p) b m a ↔ m = [] ∧ p b.head? a.head? = true := by
  constructor
  · rintro ⟨⟩; exact ⟨rfl, ‹_›⟩
  · rintro ⟨rfl, h⟩; exact .look h

theorem derives_lit {s : Str} {b : List Char} {m a : Str} : Derives (lit s) b m a ↔ m = s := by
  induction s generalizing b m with
  | nil => exact derives_eps
  | cons c s ih =>
      simp only [lit, derives_seq, derives_one, ih, decide_eq_true_eq]
      constructor
      · rintro ⟨_, _, rfl, ⟨x, rfl, rfl⟩, rfl⟩; rfl
      · rintro rfl; exact ⟨[c], s, rfl, ⟨c, rfl, rfl⟩, rfl⟩

/-- A bounded repetition of a class. -/
theorem derives_many_one {p : Char → Bool} {lo : Nat} {hi : Option Nat} {b : List Char}
    {m a : Str} :
    Derives (many (one p) lo hi) b m a ↔
      lo ≤ m.length ∧ (∀ h, hi = some h → m.length ≤ h) ∧ ∀ c ∈ m, p c = true := by
  constructor
  · intro h
    generalize hr : many (one p) lo hi = r at h
    induction h generalizing lo hi with
    | stop =>
        simp only [many.injEq] at hr
        obtain ⟨rfl, rfl, rfl⟩ := hr
        simp
    | more hhi hm h₁ _ _ ih =>
        simp only [many.injEq] at hr
        obtain ⟨rfl, rfl, rfl⟩ := hr
        obtain ⟨x, rfl, hx⟩ := derives_one.mp h₁
        obtain ⟨hlo, hup, hall⟩ := ih rfl
        refine ⟨by simp; omega, ?_, ?_⟩
        · rintro k rfl
          have := hup (k - 1) rfl
          have : k ≠ 0 := fun hk => hhi (by rw [hk])
          simp; omega
        · intro c hc
          rcases List.mem_cons.mp hc with rfl | hc
          · exact hx
          · exact hall c hc
    | _ => cases hr
  · rintro ⟨hlo, hup, hall⟩
    induction m generalizing lo hi b with
    | nil =>
        obtain rfl : lo = 0 := by simpa using hlo
        exact .stop
    | cons x m ih =>
        have hhi : hi ≠ some 0 := fun h => by have := hup 0 h; simp at this
        refine .more (m := [x]) hhi (by simp) (.one (hall x (by simp)))
          (ih (by simp at hlo; omega) ?_ fun c hc => hall c (by simp [hc]))
        rintro k hk
        obtain ⟨h, rfl, rfl⟩ := Option.map_eq_some_iff.mp hk
        have := hup h rfl
        simp at this; omega

/-! ## The matcher -/

/-- One way to match from `c`, as a text and a context. -/
def Reaches (r : Regex) (c d : Cursor) : Prop :=
  ∃ m, c.after = m ++ d.after ∧ d.before = m.reverse ++ c.before ∧ Derives r c.before m d.after

theorem repeatFrom_sound {r : Regex} (ih : ∀ c d, d ∈ run r c → Reaches r c d) {fuel lo : Nat}
    {hi : Option Nat} {c d : Cursor} (h : d ∈ repeatFrom (run r) fuel lo hi c) :
    Reaches (many r lo hi) c d := by
  have stop : ∀ {lo : Nat} {hi : Option Nat} {c : Cursor},
      d ∈ (if lo = 0 then [c] else []) → Reaches (many r lo hi) c d := by
    intro lo hi c h
    split at h
    · rename_i hlo
      simp only [List.mem_singleton] at h
      subst h hlo
      exact ⟨[], rfl, rfl, .stop⟩
    · cases h
  induction fuel generalizing lo hi c with
  | zero => exact stop h
  | succ fuel ihf =>
      simp only [repeatFrom] at h
      split at h
      · exact stop h
      · rename_i hhi
        rcases List.mem_append.mp h with h | h
        · obtain ⟨e, he, hd⟩ := List.mem_flatMap.mp h
          obtain ⟨he, hlt⟩ := List.mem_filter.mp he
          obtain ⟨m, hm, hb, hder⟩ := ih c e he
          obtain ⟨n, hn, hb', hder'⟩ := ihf hd
          refine ⟨m ++ n, by rw [hm, hn, List.append_assoc], by rw [hb', hb]; simp, ?_⟩
          refine .more hhi ?_ (hn ▸ hder) (hb ▸ hder')
          rintro rfl
          simp [hm] at hlt
        · exact stop h

/-- Every way the matcher finds is a match. -/
theorem run_sound (r : Regex) (c d : Cursor) (h : d ∈ run r c) : Reaches r c d := by
  induction r generalizing c d with
  | eps => simp only [run, List.mem_singleton] at h; subst h; exact ⟨[], rfl, rfl, .eps⟩
  | one p =>
      simp only [run] at h
      split at h
      · cases h
      · rename_i x s hs
        split at h
        · rename_i hp
          simp only [List.mem_singleton] at h
          subst h
          exact ⟨[x], by simp [hs], rfl, .one hp⟩
        · cases h
  | seq r s ihr ihs =>
      obtain ⟨e, he, hd⟩ := List.mem_flatMap.mp h
      obtain ⟨m, hm, hb, hder⟩ := ihr c e he
      obtain ⟨n, hn, hb', hder'⟩ := ihs e d hd
      exact ⟨m ++ n, by rw [hm, hn, List.append_assoc], by rw [hb', hb]; simp,
        .seq (hn ▸ hder) (hb ▸ hder')⟩
  | alt r s ihr ihs =>
      rcases List.mem_append.mp h with h | h
      · obtain ⟨m, hm, hb, hder⟩ := ihr c d h; exact ⟨m, hm, hb, .altL hder⟩
      · obtain ⟨m, hm, hb, hder⟩ := ihs c d h; exact ⟨m, hm, hb, .altR hder⟩
  | many r lo hi ih => exact repeatFrom_sound ih h
  | look p =>
      simp only [run] at h
      split at h
      · rename_i hp
        simp only [List.mem_singleton] at h
        subst h
        exact ⟨[], rfl, rfl, .look hp⟩
      · cases h
  | group r ih =>
      obtain ⟨e, he, rfl⟩ := List.mem_map.mp h
      obtain ⟨m, hm, hb, hder⟩ := ih c e he
      exact ⟨m, hm, hb, .group hder⟩

/-- The matcher finds a way for every match. -/
theorem run_complete {r : Regex} {b : List Char} {m a : Str} (h : Derives r b m a)
    (g : Option Part) :
    ∃ d ∈ run r ⟨b, m ++ a, g⟩, d.before = m.reverse ++ b ∧ d.after = a := by
  -- the repetition needs any fuel that covers the text it consumes
  suffices hs : (∃ d ∈ run r ⟨b, m ++ a, g⟩, d.before = m.reverse ++ b ∧ d.after = a) ∧
      ∀ r' lo hi, r = many r' lo hi → ∀ fuel, m.length ≤ fuel →
        ∃ d ∈ repeatFrom (run r') fuel lo hi ⟨b, m ++ a, g⟩,
          d.before = m.reverse ++ b ∧ d.after = a from hs.1
  have lift : ∀ {r' lo hi} {b : List Char} {m a : Str} {g : Option Part},
      (∀ fuel, m.length ≤ fuel → ∃ d ∈ repeatFrom (run r') fuel lo hi ⟨b, m ++ a, g⟩,
        d.before = m.reverse ++ b ∧ d.after = a) →
      (∃ d ∈ run (many r' lo hi) ⟨b, m ++ a, g⟩, d.before = m.reverse ++ b ∧ d.after = a) ∧
        ∀ r₂ lo₂ hi₂, many r' lo hi = many r₂ lo₂ hi₂ → ∀ fuel, m.length ≤ fuel →
          ∃ d ∈ repeatFrom (run r₂) fuel lo₂ hi₂ ⟨b, m ++ a, g⟩,
            d.before = m.reverse ++ b ∧ d.after = a := by
    intro r' lo hi b m a g h
    refine ⟨h _ (by simp), ?_⟩
    rintro r₂ lo₂ hi₂ ⟨⟩ fuel hf
    exact h fuel hf
  induction h generalizing g with
  | @eps b a => exact ⟨⟨⟨b, a, g⟩, by simp [run], rfl, rfl⟩, by rintro _ _ _ ⟨⟩⟩
  | @one p x b a hp => exact ⟨⟨⟨x :: b, a, g⟩, by simp [run, hp], rfl, rfl⟩, by rintro _ _ _ ⟨⟩⟩
  | seq _ _ ih₁ ih₂ =>
      obtain ⟨d, hd, hb, ha⟩ := (ih₁ g).1
      obtain ⟨e, he, hb', ha'⟩ := (ih₂ d.group).1
      refine ⟨⟨e, List.mem_flatMap.mpr ⟨d, by rwa [List.append_assoc], ?_⟩, by rw [hb']; simp, ha'⟩,
        by rintro _ _ _ ⟨⟩⟩
      rw [← hb, ← ha] at he; exact he
  | altL _ ih =>
      obtain ⟨d, hd, h⟩ := (ih g).1
      exact ⟨⟨d, List.mem_append_left _ hd, h⟩, by rintro _ _ _ ⟨⟩⟩
  | altR _ ih =>
      obtain ⟨d, hd, h⟩ := (ih g).1
      exact ⟨⟨d, List.mem_append_right _ hd, h⟩, by rintro _ _ _ ⟨⟩⟩
  | @stop r hi b a =>
      refine lift fun fuel _ => ⟨⟨b, a, g⟩, ?_, rfl, rfl⟩
      cases fuel with
      | zero => simp [repeatFrom]
      | succ fuel => simp only [repeatFrom]; split <;> simp
  | @more r lo hi b m n a hhi hm _ _ ih₁ ih₂ =>
      refine lift fun fuel hf => ?_
      have hmlen : 0 < m.length := List.length_pos_iff.mpr hm
      cases fuel with
      | zero => rw [List.length_append] at hf; omega
      | succ fuel =>
          rw [List.length_append] at hf
          obtain ⟨d, hd, hb, ha⟩ := (ih₁ g).1
          obtain ⟨e, he, hb', ha'⟩ := (ih₂ d.group).2 _ _ _ rfl fuel (by omega)
          refine ⟨e, ?_, by rw [hb']; simp, ha'⟩
          simp only [repeatFrom, hhi, ↓reduceIte]
          refine List.mem_append_left _ (List.mem_flatMap.mpr ⟨d, List.mem_filter.mpr ⟨?_, ?_⟩, ?_⟩)
          · rwa [List.append_assoc]
          · simp [ha]; omega
          · rw [← hb, ← ha] at he; exact he
  | @look p b a hp => exact ⟨⟨⟨b, a, g⟩, by simp [run, hp], rfl, rfl⟩, by rintro _ _ _ ⟨⟩⟩
  | group _ ih =>
      obtain ⟨d, hd, h⟩ := (ih g).1
      exact ⟨⟨_, List.mem_map.mpr ⟨d, hd, rfl⟩, h⟩, by rintro _ _ _ ⟨⟩⟩

theorem matchAt_sound {r : Regex} {b : List Char} {s : Str} {m : Match}
    (h : matchAt r b s = some m) :
    m.before = b ∧ s = m.text ++ m.after ∧ Derives r b m.text m.after := by
  obtain ⟨c, hc, rfl⟩ := Option.map_eq_some_iff.mp h
  obtain ⟨t, ht, _, hder⟩ := run_sound r _ c (List.mem_of_mem_head? hc)
  simp only at ht hder
  subst ht
  have htake : (t ++ c.after).take ((t ++ c.after).length - c.after.length) = t := by simp
  exact ⟨rfl, by rw [htake], by rw [htake]; exact hder⟩

theorem matchAt_complete {r : Regex} {b : List Char} {t a : Str} (h : Derives r b t a) :
    ∃ m, matchAt r b (t ++ a) = some m := by
  obtain ⟨d, hd, _⟩ := run_complete h none
  obtain ⟨e, he⟩ : ∃ e, (run r ⟨b, t ++ a, none⟩).head? = some e := by
    cases hrun : run r ⟨b, t ++ a, none⟩ with
    | nil => rw [hrun] at hd; cases hd
    | cons e l => exact ⟨e, rfl⟩
  exact ⟨_, Option.map_eq_some_iff.mpr ⟨e, he, rfl⟩⟩

/-- A whole text that the search matches. -/
theorem derives_of_matchAt {r : Regex} {s : Str}
    (h : (matchAt r [] s).map (fun m => (m.text, m.after)) = some (s, [])) : Derives r [] s [] := by
  obtain ⟨m, hm, heq⟩ := Option.map_eq_some_iff.mp h
  obtain ⟨htext, hafter⟩ := Prod.mk.inj heq
  obtain ⟨_, _, hd⟩ := matchAt_sound hm
  rwa [htext, hafter] at hd

theorem mem_findFrom {r : Regex} {skip : Nat} {b : List Char} {s : Str} {m : Match}
    (h : m ∈ findFrom r skip b s) :
    m.whole = b.reverse ++ s ∧ Derives r m.before m.text m.after := by
  induction s generalizing skip b with
  | nil => cases skip <;> cases h
  | cons x s ih =>
      have step : ∀ k, m ∈ findFrom r k (x :: b) s →
          m.whole = b.reverse ++ x :: s ∧ Derives r m.before m.text m.after := by
        intro k hk
        obtain ⟨hw, hd⟩ := ih hk
        exact ⟨by rw [hw]; simp, hd⟩
      cases skip with
      | succ k => exact step k h
      | zero =>
          simp only [findFrom] at h
          split at h
          · exact step _ h
          · rename_i m' hm
            rcases List.mem_cons.mp h with rfl | h
            · obtain ⟨hb, hs, hd⟩ := matchAt_sound hm
              exact ⟨by rw [Part.whole, hb, hs]; simp, hb ▸ hd⟩
            · exact step _ h

/-- Every match reported is a part of the text that the pattern matches there. -/
theorem mem_findIter {r : Regex} {s : Str} {m : Match} (h : m ∈ findIter r s) :
    s = m.before.reverse ++ m.text ++ m.after ∧ Derives r m.before m.text m.after := by
  obtain ⟨hw, hd⟩ := mem_findFrom h
  exact ⟨by rw [← Part.whole, hw]; rfl, hd⟩

/-- The pattern matches no empty text. -/
def NonEmpty (r : Regex) : Prop := ∀ b m a, Derives r b m a → m ≠ []

theorem findFrom_covers {r : Regex} (hr : NonEmpty r) {k : Nat} {b : List Char} {p t q : Str}
    (hd : Derives r (p.reverse ++ b) t q) (hk : k ≤ p.length) :
    ∃ m ∈ findFrom r k b (p ++ t ++ q), m.before.length ≤ b.length + p.length ∧
      b.length + p.length < m.before.length + m.text.length := by
  have htne : t ≠ [] := hr _ _ _ hd
  induction p generalizing k b with
  | nil =>
      obtain rfl : k = 0 := by simpa using hk
      cases t with
      | nil => exact absurd rfl htne
      | cons x t =>
          obtain ⟨m, hm⟩ := matchAt_complete hd
          obtain ⟨hb, hs, hder⟩ := matchAt_sound hm
          have hpos := List.length_pos_iff.mpr (hr _ _ _ hder)
          refine ⟨m, ?_, by rw [hb]; simp, by rw [hb]; simp; omega⟩
          simp only [List.reverse_nil, List.nil_append, List.cons_append] at hm ⊢
          simp only [findFrom, hm]
          exact List.mem_cons_self
  | cons x p ih =>
      have step : ∀ j, j ≤ p.length → ∃ m ∈ findFrom r j (x :: b) (p ++ t ++ q),
          m.before.length ≤ b.length + (x :: p).length ∧
            b.length + (x :: p).length < m.before.length + m.text.length := by
        intro j hj
        obtain ⟨m, hm, h₁, h₂⟩ := ih (k := j) (b := x :: b) (by simpa using hd) hj
        exact ⟨m, hm, by simp at h₁ ⊢; omega, by simp at h₂ ⊢; omega⟩
      cases k with
      | succ k => exact step k (by simpa using hk)
      | zero =>
          cases hm : matchAt r b (x :: (p ++ t ++ q)) with
          | none =>
              obtain ⟨m, hmem, h⟩ := step 0 (Nat.zero_le _)
              exact ⟨m, by simpa only [List.cons_append, findFrom, hm] using hmem, h⟩
          | some m =>
              obtain ⟨hb, hs, hder⟩ := matchAt_sound hm
              have hpos := List.length_pos_iff.mpr (hr _ _ _ hder)
              by_cases hlong : (x :: p).length < m.text.length
              · refine ⟨m, ?_, by rw [hb]; simp, by rw [hb]; omega⟩
                simp only [List.cons_append, findFrom, hm]
                exact List.mem_cons_self
              · obtain ⟨m', hmem, h⟩ := step (m.text.length - 1) (by simp at hlong; omega)
                refine ⟨m', ?_, h⟩
                simp only [List.cons_append, findFrom, hm]
                exact List.mem_cons_of_mem _ hmem

/-- Where the pattern matches a part of the text, some reported match begins there or before and
ends after that. -/
theorem findIter_covers {r : Regex} (hr : NonEmpty r) {p t q : Str}
    (hd : Derives r p.reverse t q) : ∃ m ∈ findIter r (p ++ t ++ q),
      m.before.length ≤ p.length ∧ p.length < m.before.length + m.text.length := by
  have := findFrom_covers (k := 0) (b := []) hr (by simpa using hd) (Nat.zero_le _)
  simpa [findIter] using this

theorem findIter_range_overlaps {r : Regex} (hr : NonEmpty r) {p t q : Str}
    (hd : Derives r p.reverse t q) :
    ∃ m ∈ findIter r (p ++ t ++ q), m.range.start < len p + len t ∧ len p < m.range.stop := by
  obtain ⟨m, hm, h₁, h₂⟩ := findIter_covers hr hd
  have hpos := List.length_pos_iff.mpr (hr _ _ _ hd)
  obtain ⟨hs, _⟩ := mem_findIter hm
  have hs₁ : m.before.reverse ++ (m.text ++ m.after) = (p ++ t) ++ q := by rw [hs]; simp
  have hs₂ : p ++ (t ++ q) = (m.before.reverse ++ m.text) ++ m.after := by rw [← hs]; simp
  have hstart := len_lt_of_split hs₁ (by simp; omega)
  have hstop := len_lt_of_split hs₂ (by simpa using h₂)
  rw [len_append, len_reverse] at hstop
  rw [len_append, len_reverse] at hstart
  exact ⟨m, hm, hstart, hstop⟩

theorem le_before_of_mem_findFrom {r : Regex} (hr : NonEmpty r) {k : Nat} {b : List Char} {s : Str}
    {m : Match} (h : m ∈ findFrom r k b s) : b.length + k ≤ m.before.length := by
  induction s generalizing k b with
  | nil => cases k <;> cases h
  | cons x s ih =>
      cases k with
      | succ k =>
          have := ih (b := x :: b) (k := k) h
          simp at this
          omega
      | zero =>
          simp only [findFrom] at h
          split at h
          · have := ih h
            simp at this
            omega
          · rename_i m' hm
            obtain ⟨hb, _, hd⟩ := matchAt_sound hm
            have hpos := List.length_pos_iff.mpr (hr _ _ _ hd)
            rcases List.mem_cons.mp h with rfl | h
            · rw [hb]
              simp
            · have := ih h
              simp at this
              omega

/-- Each match begins after the ones before it. -/
theorem findFrom_pairwise {r : Regex} (hr : NonEmpty r) {k : Nat} {b : List Char} {s : Str} :
    (findFrom r k b s).Pairwise fun m m' => m.before.length + m.text.length ≤ m'.before.length := by
  induction s generalizing k b with
  | nil => cases k <;> exact .nil
  | cons x s ih =>
      cases k with
      | succ k => exact ih
      | zero =>
          simp only [findFrom]
          split
          · exact ih
          · rename_i m hm
            obtain ⟨hb, _, hd⟩ := matchAt_sound hm
            have hpos := List.length_pos_iff.mpr (hr _ _ _ hd)
            refine .cons (fun m' hm' => ?_) ih
            have := le_before_of_mem_findFrom hr hm'
            rw [List.length_cons] at this
            rw [hb]
            omega

/-- Two matches are apart or the same. -/
theorem findIter_disjoint {r : Regex} (hr : NonEmpty r) {s : Str} {m m' : Match}
    (h : m ∈ findIter r s) (h' : m' ∈ findIter r s) : m = m' ∨
      m.before.length + m.text.length ≤ m'.before.length ∨
      m'.before.length + m'.text.length ≤ m.before.length := by
  have hpair := @findFrom_pairwise r hr 0 [] s
  exact List.Pairwise.forall_of_forall_of_flip
    (R := fun m m' => m = m' ∨ m.before.length + m.text.length ≤ m'.before.length ∨
      m'.before.length + m'.text.length ≤ m.before.length) (fun _ _ => .inl rfl)
    (hpair.imp fun h => .inr (.inl h)) (hpair.imp fun h => .inr (.inr h)) h h'

/-! ## Lengths -/

/-- The least length that the pattern can match. -/
def minLength : Regex → Nat
  | eps | look _ => 0
  | one _ => 1
  | seq r s => minLength r + minLength s
  | alt r s => min (minLength r) (minLength s)
  | many r lo _ => lo * minLength r
  | group r => minLength r

theorem Derives.minLength_le {r : Regex} {b : List Char} {m a : Str} (h : Derives r b m a) :
    minLength r ≤ m.length := by
  induction h with
  | eps | stop | look _ => simp [minLength]
  | one _ => simp [minLength]
  | seq _ _ ih₁ ih₂ => simp only [minLength, List.length_append]; omega
  | altL _ ih => simp only [minLength]; omega
  | altR _ ih => simp only [minLength]; omega
  | @more r lo hi b m n a _ _ _ _ ih₁ ih₂ =>
      simp only [minLength, List.length_append] at ih₂ ⊢
      cases lo with
      | zero => omega
      | succ lo => rw [Nat.succ_mul]; simp only [Nat.add_sub_cancel] at ih₂; omega
  | group _ ih => exact ih

theorem nonEmpty_of_minLength {r : Regex} (h : 0 < minLength r) : NonEmpty r := by
  rintro b m a hd rfl
  have := hd.minLength_le
  simp at this
  omega

/-! ## Captures -/

/-- Every capture group of the pattern matches at least `n` characters. -/
def GroupsAtLeast (n : Nat) : Regex → Prop
  | eps | one _ | look _ => True
  | seq r s | alt r s => GroupsAtLeast n r ∧ GroupsAtLeast n s
  | many r _ _ => GroupsAtLeast n r
  | group r => n ≤ minLength r ∧ GroupsAtLeast n r

instance decidableGroupsAtLeast (n : Nat) : (r : Regex) → Decidable (GroupsAtLeast n r)
  | eps | one _ | look _ => inferInstanceAs (Decidable True)
  | seq r s | alt r s =>
      have := decidableGroupsAtLeast n r
      have := decidableGroupsAtLeast n s
      inferInstanceAs (Decidable (_ ∧ _))
  | many r _ _ => decidableGroupsAtLeast n r
  | group r =>
      have := decidableGroupsAtLeast n r
      inferInstanceAs (Decidable (_ ∧ _))

/-- The capture is a part of the text, of at least `n` characters. -/
def Cursor.Captures (n : Nat) (c : Cursor) : Prop :=
  ∀ g ∈ c.group, g.whole = c.before.reverse ++ c.after ∧ n ≤ g.text.length

theorem repeatFrom_captures {n : Nat} {r : Regex}
    (ih : ∀ c d, d ∈ run r c → c.Captures n → d.Captures n) {fuel lo : Nat} {hi : Option Nat}
    {c d : Cursor} (h : d ∈ repeatFrom (run r) fuel lo hi c) (hc : c.Captures n) :
    d.Captures n := by
  have stop : ∀ {lo : Nat} {c : Cursor}, d ∈ (if lo = 0 then [c] else []) → c.Captures n →
      d.Captures n := by
    intro lo c h hc
    split at h
    · rw [List.mem_singleton.mp h]; exact hc
    · cases h
  induction fuel generalizing lo hi c with
  | zero => exact stop h hc
  | succ fuel ihf =>
      simp only [repeatFrom] at h
      split at h
      · exact stop h hc
      · rcases List.mem_append.mp h with h | h
        · obtain ⟨e, he, hd⟩ := List.mem_flatMap.mp h
          exact ihf hd (ih c e (List.mem_filter.mp he).1 hc)
        · exact stop h hc

theorem run_captures {n : Nat} {r : Regex} (hr : GroupsAtLeast n r) (c d : Cursor)
    (h : d ∈ run r c) (hc : c.Captures n) : d.Captures n := by
  induction r generalizing c d with
  | eps => rw [List.mem_singleton.mp h]; exact hc
  | one p =>
      simp only [run] at h
      split at h
      · cases h
      · rename_i x s hs
        split at h
        · rw [List.mem_singleton.mp h]
          intro g hg
          obtain ⟨hw, hn⟩ := hc g hg
          exact ⟨by rw [hw, hs]; simp, hn⟩
        · cases h
  | seq r s ihr ihs =>
      obtain ⟨e, he, hd⟩ := List.mem_flatMap.mp h
      exact ihs hr.2 e d hd (ihr hr.1 c e he hc)
  | alt r s ihr ihs =>
      rcases List.mem_append.mp h with h | h
      · exact ihr hr.1 c d h hc
      · exact ihs hr.2 c d h hc
  | many r lo hi ih => exact repeatFrom_captures (fun c d => ih hr c d) h hc
  | look p =>
      simp only [run] at h
      split at h
      · rw [List.mem_singleton.mp h]; exact hc
      · cases h
  | group r ih =>
      obtain ⟨e, he, rfl⟩ := List.mem_map.mp h
      obtain ⟨m, hm, hb, hder⟩ := run_sound r c e he
      intro g hg
      obtain rfl := Option.some.inj hg
      have htake : c.after.take (c.after.length - e.after.length) = m := by rw [hm]; simp
      refine ⟨?_, ?_⟩
      · simp only [Part.whole, htake, hb]
        simp
      · simp only [htake]
        exact Nat.le_trans hr.1 hder.minLength_le

theorem findFrom_group {n : Nat} {r : Regex} (hr : GroupsAtLeast n r) {skip : Nat}
    {b : List Char} {s : Str} {m : Match} (h : m ∈ findFrom r skip b s) :
    ∀ g ∈ m.group, g.whole = b.reverse ++ s ∧ n ≤ g.text.length := by
  induction s generalizing skip b with
  | nil => cases skip <;> cases h
  | cons x s ih =>
      have step : ∀ k, m ∈ findFrom r k (x :: b) s →
          ∀ g ∈ m.group, g.whole = b.reverse ++ x :: s ∧ n ≤ g.text.length := by
        intro k hk g hg
        obtain ⟨hw, hn⟩ := ih hk g hg
        exact ⟨by rw [hw]; simp, hn⟩
      cases skip with
      | succ k => exact step k h
      | zero =>
          simp only [findFrom] at h
          split at h
          · exact step _ h
          · rename_i m' hm
            rcases List.mem_cons.mp h with rfl | h
            · obtain ⟨d, hd, rfl⟩ := Option.map_eq_some_iff.mp hm
              have hmem := List.mem_of_mem_head? hd
              obtain ⟨t, ht, hb, _⟩ := run_sound r _ d hmem
              have hcap := run_captures hr _ d hmem (by intro g hg; cases hg)
              intro g hg
              obtain ⟨hw, hn⟩ := hcap g hg
              refine ⟨?_, hn⟩
              rw [hw, hb, show x :: s = t ++ d.after from ht]
              simp
            · exact step _ h

/-- The capture of a reported match is a part of the text. -/
theorem group_of_mem_findIter {n : Nat} {r : Regex} (hr : GroupsAtLeast n r) {s : Str} {m : Match}
    (h : m ∈ findIter r s) {g : Part} (hg : g ∈ m.group) :
    s = g.before.reverse ++ g.text ++ g.after ∧ n ≤ g.text.length := by
  obtain ⟨hw, hn⟩ := findFrom_group hr h g hg
  exact ⟨hw.symm, hn⟩

/-! ## Patterns without assertions -/

/-- The pattern has no assertion about its context. -/
def ContextFree : Regex → Prop
  | eps | one _ => True
  | look _ => False
  | seq r s | alt r s => ContextFree r ∧ ContextFree s
  | many r _ _ | group r => ContextFree r

instance decidableContextFree : (r : Regex) → Decidable (ContextFree r)
  | eps | one _ => inferInstanceAs (Decidable True)
  | look _ => inferInstanceAs (Decidable False)
  | seq r s | alt r s =>
      have := decidableContextFree r
      have := decidableContextFree s
      inferInstanceAs (Decidable (_ ∧ _))
  | many r _ _ | group r => decidableContextFree r

/-- Every class of the pattern is inside `P`. -/
def Within (P : Char → Prop) : Regex → Prop
  | eps | look _ => True
  | one p => ∀ c, p c = true → P c
  | seq r s | alt r s => Within P r ∧ Within P s
  | many r _ _ | group r => Within P r

theorem within_lit {P : Char → Prop} {s : Str} (h : ∀ c ∈ s, P c) : Within P (lit s) := by
  induction s with
  | nil => trivial
  | cons c s ih =>
      obtain ⟨hc, hs⟩ := List.forall_mem_cons.mp h
      exact ⟨fun d hd => of_decide_eq_true hd ▸ hc, ih hs⟩

theorem Derives.context {r : Regex} {b : List Char} {m a : Str} (h : Derives r b m a)
    (hr : ContextFree r) : ∀ b' a', Derives r b' m a' := by
  induction h with
  | eps => exact fun _ _ => .eps
  | one hp => exact fun _ _ => .one hp
  | seq _ _ ih₁ ih₂ => exact fun _ _ => .seq (ih₁ hr.1 _ _) (ih₂ hr.2 _ _)
  | altL _ ih => exact fun _ _ => .altL (ih hr.1 _ _)
  | altR _ ih => exact fun _ _ => .altR (ih hr.2 _ _)
  | stop => exact fun _ _ => .stop
  | more hhi hm _ _ ih₁ ih₂ => exact fun _ _ => .more hhi hm (ih₁ hr _ _) (ih₂ hr _ _)
  | look _ => exact hr.elim
  | group _ ih => exact fun _ _ => .group (ih hr _ _)

theorem Derives.within {P : Char → Prop} {r : Regex} {b : List Char} {m a : Str}
    (h : Derives r b m a) (hr : Within P r) : ∀ c ∈ m, P c := by
  induction h with
  | eps | stop | look _ => intro c hc; cases hc
  | one hp => intro c hc; rw [List.mem_singleton.mp hc]; exact hr _ hp
  | seq _ _ ih₁ ih₂ =>
      intro c hc
      rcases List.mem_append.mp hc with hc | hc
      · exact ih₁ hr.1 c hc
      · exact ih₂ hr.2 c hc
  | more _ _ _ _ ih₁ ih₂ =>
      intro c hc
      rcases List.mem_append.mp hc with hc | hc
      · exact ih₁ hr c hc
      · exact ih₂ hr c hc
  | altL _ ih => exact ih hr.1
  | altR _ ih => exact ih hr.2
  | group _ ih => exact ih hr

/-- Every match of the pattern has a character that satisfies `P`. -/
def Requires (P : Char → Prop) : Regex → Prop
  | eps | look _ => False
  | one p => ∀ c, p c = true → P c
  | seq r s => Requires P r ∨ Requires P s
  | alt r s => Requires P r ∧ Requires P s
  | many r lo _ => 0 < lo ∧ Requires P r
  | group r => Requires P r

theorem requires_lit {P : Char → Prop} {s : Str} (h : ∃ c ∈ s, P c) : Requires P (lit s) := by
  induction s with
  | nil => obtain ⟨_, hc, _⟩ := h; cases hc
  | cons c s ih =>
      obtain ⟨d, hd, hp⟩ := h
      rcases List.mem_cons.mp hd with rfl | hd
      · exact .inl fun e he => of_decide_eq_true he ▸ hp
      · exact .inr (ih ⟨d, hd, hp⟩)

theorem Derives.requires {P : Char → Prop} {r : Regex} {b : List Char} {m a : Str}
    (h : Derives r b m a) (hr : Requires P r) : ∃ c ∈ m, P c := by
  induction h with
  | eps | look _ => exact hr.elim
  | one hp => exact ⟨_, List.mem_singleton_self _, hr _ hp⟩
  | seq _ _ ih₁ ih₂ =>
      rcases hr with hr | hr
      · obtain ⟨c, hc, hp⟩ := ih₁ hr
        exact ⟨c, List.mem_append_left _ hc, hp⟩
      · obtain ⟨c, hc, hp⟩ := ih₂ hr
        exact ⟨c, List.mem_append_right _ hc, hp⟩
  | altL _ ih => exact ih hr.1
  | altR _ ih => exact ih hr.2
  | stop => exact absurd hr.1 (Nat.lt_irrefl 0)
  | more _ _ _ _ ih₁ _ =>
      obtain ⟨c, hc, hp⟩ := ih₁ hr.2
      exact ⟨c, List.mem_append_left _ hc, hp⟩
  | group _ ih => exact ih hr

/-- A pattern that requires a character finds nothing in a text without one. -/
theorem findIter_eq_nil {P : Char → Prop} {r : Regex} (hr : Requires P r) {s : Str}
    (hs : ∀ c ∈ s, ¬P c) : findIter r s = [] := by
  refine List.eq_nil_iff_forall_not_mem.mpr fun m hm => ?_
  obtain ⟨htext, hd⟩ := mem_findIter hm
  obtain ⟨c, hc, hp⟩ := hd.requires hr
  exact hs c (by rw [htext]; simp [hc]) hp

end Regex

end AgentVeil.Rust
