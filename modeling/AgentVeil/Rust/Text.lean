import Mathlib.Algebra.GroupWithZero.Nat
import Mathlib.Data.List.Basic

/-!
# Strings as UTF-8 text

A Rust `&str` is a list of scalar values; every offset is an offset into its UTF-8 encoding. Slicing
is a split of the list, defined exactly at the character boundaries, so that a slice that would
panic has no value.
-/

namespace AgentVeil.Rust

/-- The text of a `&str` or a `String`. -/
abbrev Str := List Char

instance : LawfulBEq Str := inferInstance

/-- `Range<usize>` over byte offsets. -/
structure Span where
  start : Nat
  stop : Nat
  deriving DecidableEq, Repr

/-! ## Byte lengths and splits -/

/-- `str::len`, in bytes. -/
def len : Str → Nat
  | [] => 0
  | c :: s => c.utf8Size + len s

/-- The two parts of a string around a byte offset, when the offset is a character boundary. -/
def splitAt? : Str → Nat → Option (Str × Str)
  | [], n => if n = 0 then some ([], []) else none
  | c :: s, n =>
      if n = 0 then some ([], c :: s)
      else if c.utf8Size ≤ n then (splitAt? s (n - c.utf8Size)).map fun p => (c :: p.1, p.2)
      else none

/-- `str::is_char_boundary`. -/
def isCharBoundary (s : Str) (n : Nat) : Bool := (splitAt? s n).isSome

/-- `&s[n..]`, when it does not panic. -/
def sliceFrom? (s : Str) (n : Nat) : Option Str := (splitAt? s n).map Prod.snd

/-- `&s[..n]`, when it does not panic. -/
def sliceTo? (s : Str) (n : Nat) : Option Str := (splitAt? s n).map Prod.fst

/-- `str::get` on a range; `&s[r]` is its value when it does not panic. -/
def get? (s : Str) (r : Span) : Option Str :=
  if r.start ≤ r.stop then (sliceFrom? s r.start).bind (sliceTo? · (r.stop - r.start)) else none

/-- `String::replace_range`, when it does not panic. -/
def replaceRange? (s : Str) (r : Span) (w : Str) : Option Str :=
  if r.start ≤ r.stop then do
    let (p, t) ← splitAt? s r.start
    let (_, q) ← splitAt? t (r.stop - r.start)
    some (p ++ w ++ q)
  else none

@[simp] theorem len_nil : len [] = 0 := rfl
@[simp] theorem len_cons (c : Char) (s : Str) : len (c :: s) = c.utf8Size + len s := rfl

@[simp] theorem len_append (s t : Str) : len (s ++ t) = len s + len t := by
  induction s with
  | nil => simp
  | cons c s ih => simp [ih, Nat.add_assoc]

@[simp] theorem len_reverse (s : Str) : len s.reverse = len s := by
  induction s with
  | nil => rfl
  | cons c s ih => simp [ih, Nat.add_comm]

theorem length_le_len (s : Str) : s.length ≤ len s := by
  induction s with
  | nil => simp
  | cons c s ih =>
      have := c.utf8Size_pos
      simp only [List.length_cons, len_cons]; omega

theorem len_eq_zero {s : Str} : len s = 0 ↔ s = [] := by
  constructor
  · intro h
    have := length_le_len s
    exact List.length_eq_zero_iff.mp (by omega)
  · rintro rfl; rfl

theorem len_pos {s : Str} : 0 < len s ↔ s ≠ [] := by
  rw [Nat.pos_iff_ne_zero, ne_eq, len_eq_zero]

/-- Splitting a string at the end of a prefix gives back the two parts. -/
@[simp] theorem splitAt?_append (a b : Str) : splitAt? (a ++ b) (len a) = some (a, b) := by
  induction a with
  | nil => cases b <;> simp [splitAt?]
  | cons c a ih =>
      have hc := c.utf8Size_pos
      have h1 : ¬ (c.utf8Size + len a = 0) := by omega
      simp only [List.cons_append, splitAt?, len_cons, h1, ↓reduceIte, Nat.le_add_right,
        Nat.add_sub_cancel_left, ih, Option.map_some]

theorem splitAt?_eq_some_iff {s a b : Str} {n : Nat} :
    splitAt? s n = some (a, b) ↔ s = a ++ b ∧ len a = n := by
  constructor
  · intro h
    induction s generalizing n a with
    | nil =>
        simp only [splitAt?] at h
        split at h
        · simp only [Option.some.injEq, Prod.mk.injEq] at h
          obtain ⟨rfl, rfl⟩ := h
          simp_all
        · cases h
    | cons c s ih =>
        simp only [splitAt?] at h
        split at h
        · simp only [Option.some.injEq, Prod.mk.injEq] at h
          obtain ⟨rfl, rfl⟩ := h
          simp_all
        · split at h
          · rename_i hle
            simp only [Option.map_eq_some_iff, Prod.mk.injEq] at h
            obtain ⟨⟨a', b'⟩, hs, rfl, rfl⟩ := h
            obtain ⟨rfl, hl⟩ := ih hs
            exact ⟨rfl, by simp only [len_cons, hl]; omega⟩
          · cases h
  · rintro ⟨rfl, rfl⟩
    exact splitAt?_append a b

/-- A boundary is the end of a prefix. -/
theorem isCharBoundary_iff {s : Str} {n : Nat} :
    isCharBoundary s n = true ↔ ∃ a b, s = a ++ b ∧ len a = n := by
  simp only [isCharBoundary, Option.isSome_iff_exists, Prod.exists, splitAt?_eq_some_iff]

theorem isCharBoundary_zero (s : Str) : isCharBoundary s 0 = true :=
  isCharBoundary_iff.mpr ⟨[], s, rfl, rfl⟩

theorem isCharBoundary_len (s : Str) : isCharBoundary s (len s) = true :=
  isCharBoundary_iff.mpr ⟨s, [], by simp, rfl⟩

theorem isCharBoundary_append (a b : Str) : isCharBoundary (a ++ b) (len a) = true :=
  isCharBoundary_iff.mpr ⟨a, b, rfl, rfl⟩

theorem le_len_of_isCharBoundary {s : Str} {n : Nat} (h : isCharBoundary s n = true) :
    n ≤ len s := by
  obtain ⟨a, b, rfl, rfl⟩ := isCharBoundary_iff.mp h
  simp

/-- Two splits of one string at ordered offsets leave the text between them. -/
theorem append_split_le {a b a' b' : Str} (h : a ++ b = a' ++ b') (hle : len a ≤ len a') :
    ∃ m, a' = a ++ m ∧ b = m ++ b' := by
  rcases List.append_eq_append_iff.mp h with ⟨m, rfl, rfl⟩ | ⟨m, rfl, rfl⟩
  · exact ⟨m, rfl, rfl⟩
  · have : m = [] := len_eq_zero.mp (by simp at hle; omega)
    subst this
    exact ⟨[], by simp, by simp⟩

theorem append_split_eq {a b a' b' : Str} (h : a ++ b = a' ++ b') (hlen : len a = len a') :
    a = a' ∧ b = b' := by
  obtain ⟨m, rfl, rfl⟩ := append_split_le h (by omega)
  have : m = [] := len_eq_zero.mp (by simp at hlen; omega)
  subst this
  simp

/-- Of two splits of one string, the shorter prefix has fewer bytes. -/
theorem len_lt_of_split {a b a' b' : Str} (h : a ++ b = a' ++ b') (hlt : a.length < a'.length) :
    len a < len a' := by
  by_contra hle
  obtain ⟨m, rfl, _⟩ := append_split_le h.symm (Nat.le_of_not_lt hle)
  rw [List.length_append] at hlt
  omega

theorem get?_eq_some_iff {s m : Str} {r : Span} :
    get? s r = some m ↔ ∃ p q, s = p ++ m ++ q ∧ len p = r.start ∧ r.start + len m = r.stop := by
  constructor
  · intro h
    simp only [get?, sliceFrom?, sliceTo?] at h
    split at h
    · rename_i hle
      simp only [Option.bind_eq_some_iff, Option.map_eq_some_iff, Prod.exists, exists_and_right,
        exists_eq_right] at h
      obtain ⟨t, ⟨p, hp⟩, q, hq⟩ := h
      obtain ⟨rfl, hpl⟩ := splitAt?_eq_some_iff.mp hp
      obtain ⟨rfl, hml⟩ := splitAt?_eq_some_iff.mp hq
      exact ⟨p, q, by simp, hpl, by omega⟩
    · cases h
  · rintro ⟨p, q, rfl, hp, hm⟩
    obtain ⟨start, stop⟩ := r
    obtain rfl : len p = start := hp
    obtain rfl : len p + len m = stop := hm
    simp [get?, sliceFrom?, sliceTo?]

/-- A range with ordered boundary ends has a slice. -/
theorem get?_isSome_of_boundary {s : Str} {r : Span} (h₁ : isCharBoundary s r.start = true)
    (h₂ : isCharBoundary s r.stop = true) (hle : r.start ≤ r.stop) : ∃ m, get? s r = some m := by
  obtain ⟨a, b, rfl, ha⟩ := isCharBoundary_iff.mp h₁
  obtain ⟨a', b', he, ha'⟩ := isCharBoundary_iff.mp h₂
  obtain ⟨m, rfl, rfl⟩ := append_split_le he (by omega)
  refine ⟨m, get?_eq_some_iff.mpr ⟨a, b', by simp, ha, ?_⟩⟩
  simp at ha'; omega

theorem replaceRange?_append {p m q w : Str} {r : Span} (hp : len p = r.start)
    (hm : r.start + len m = r.stop) : replaceRange? (p ++ m ++ q) r w = some (p ++ w ++ q) := by
  obtain ⟨start, stop⟩ := r
  obtain rfl : len p = start := hp
  obtain rfl : len p + len m = stop := hm
  simp [replaceRange?]

/-! ## Searching -/

/-- `str::find` for a string pattern. -/
def findStr (pat : Str) : Str → Option Nat
  | [] => if pat = [] then some 0 else none
  | c :: s => if pat.isPrefixOf (c :: s) then some 0 else (findStr pat s).map (c.utf8Size + ·)

/-- `str::contains` for a string pattern. -/
def contains (pat s : Str) : Bool := (findStr pat s).isSome

/-- `str::find` for a predicate on characters. -/
def findChar (p : Char → Bool) : Str → Option Nat
  | [] => none
  | c :: s => if p c then some 0 else (findChar p s).map (c.utf8Size + ·)

/-- `str::rfind` for a predicate on characters. -/
def rfindChar (p : Char → Bool) : Str → Option Nat
  | [] => none
  | c :: s =>
      match rfindChar p s with
      | some i => some (c.utf8Size + i)
      | none => if p c then some 0 else none

/-- The scan of `match_indices` at byte `off`; `skip` characters are still inside the last match. -/
def matchIndicesFrom (pat : Str) (off : Nat) : Nat → Str → List Nat
  | _, [] => []
  | skip + 1, c :: s => matchIndicesFrom pat (off + c.utf8Size) skip s
  | 0, c :: s =>
      if pat.isPrefixOf (c :: s) then
        off :: matchIndicesFrom pat (off + c.utf8Size) (pat.length - 1) s
      else matchIndicesFrom pat (off + c.utf8Size) 0 s

/-- The starts reported by `str::match_indices` for a non-empty pattern: disjoint occurrences, from
the left. -/
def matchIndices (pat s : Str) : List Nat := matchIndicesFrom pat 0 0 s

theorem findStr_eq_some {pat s : Str} {i : Nat} (h : findStr pat s = some i) :
    ∃ a b, s = a ++ pat ++ b ∧ len a = i := by
  induction s generalizing i with
  | nil =>
      simp only [findStr] at h
      split at h
      · cases h; subst pat; exact ⟨[], [], rfl, rfl⟩
      · cases h
  | cons c s ih =>
      simp only [findStr] at h
      split at h
      · rename_i hp
        cases h
        obtain ⟨b, hb⟩ := List.isPrefixOf_iff_prefix.mp hp
        exact ⟨[], b, by simp [hb], rfl⟩
      · simp only [Option.map_eq_some_iff] at h
        obtain ⟨j, hj, rfl⟩ := h
        obtain ⟨a, b, rfl, rfl⟩ := ih hj
        exact ⟨c :: a, b, rfl, rfl⟩

/-- `a` is the text before the first occurrence of the pattern in `a ++ pat`. -/
def First (pat a : Str) : Prop := findStr pat (a ++ pat) = some (len a)

instance (pat a : Str) : Decidable (First pat a) := inferInstanceAs (Decidable (_ = _))

theorem findStr_append {pat s : Str} {i : Nat} (b : Str) (h : findStr pat s = some i) :
    findStr pat (s ++ b) = some i := by
  induction s generalizing i with
  | nil =>
      simp only [findStr] at h
      split at h
      · subst pat
        cases h
        cases b <;> rfl
      · cases h
  | cons c s ih =>
      simp only [findStr] at h
      rw [List.cons_append, findStr]
      split at h
      · rename_i hp
        obtain ⟨d, hd⟩ := List.isPrefixOf_iff_prefix.mp hp
        rw [if_pos (List.isPrefixOf_iff_prefix.mpr ⟨d ++ b, by rw [← List.append_assoc, hd]; rfl⟩), h]
      · rename_i hp
        obtain ⟨j, hj, rfl⟩ := Option.map_eq_some_iff.mp h
        split
        · rename_i hp'
          -- an occurrence at the front of the longer text would reach beyond `s`
          obtain ⟨x, y, hs, hx⟩ := findStr_eq_some hj
          obtain ⟨d, hd⟩ := List.isPrefixOf_iff_prefix.mp hp'
          refine absurd (List.isPrefixOf_iff_prefix.mpr ?_) hp
          refine List.prefix_of_prefix_length_le ⟨d, hd⟩ ⟨b, rfl⟩ ?_
          rw [hs]
          simp
          omega
        · rw [ih hj, Option.map_some]

theorem findStr_of_first {pat a : Str} (h : First pat a) (b : Str) :
    findStr pat (a ++ (pat ++ b)) = some (len a) := by
  rw [← List.append_assoc]
  exact findStr_append b h

/-- The occurrence found is the leftmost one. -/
theorem findStr_le {pat x y : Str} : ∃ i, findStr pat (x ++ (pat ++ y)) = some i ∧ i ≤ len x := by
  induction x with
  | nil =>
      refine ⟨0, ?_, Nat.le_refl _⟩
      cases hs : pat ++ y with
      | nil => simp [findStr, (List.append_eq_nil_iff.mp hs).1]
      | cons c s =>
          rw [List.nil_append, findStr, if_pos (List.isPrefixOf_iff_prefix.mpr ⟨y, hs⟩)]
  | cons c x ih =>
      obtain ⟨i, hi, hle⟩ := ih
      rw [List.cons_append, findStr, hi]
      split
      · exact ⟨0, rfl, Nat.zero_le _⟩
      · exact ⟨_, rfl, Nat.add_le_add_left hle _⟩

theorem findStr_eq_none {pat s : Str} (h : findStr pat s = none) (x y : Str) :
    s ≠ x ++ (pat ++ y) := by
  rintro rfl
  obtain ⟨i, hi, _⟩ := @findStr_le pat x y
  rw [h] at hi
  cases hi

/-- A search ends at a first occurrence. -/
theorem findStr_first {pat s : Str} {i : Nat} (h : findStr pat s = some i) :
    ∃ a b, s = a ++ (pat ++ b) ∧ len a = i ∧ First pat a := by
  obtain ⟨a, b, hs, rfl⟩ := findStr_eq_some h
  rw [List.append_assoc] at hs
  subst hs
  refine ⟨a, b, rfl, rfl, ?_⟩
  obtain ⟨i, hi, hle⟩ := @findStr_le pat a []
  rw [List.append_nil] at hi
  have hsame := findStr_append b hi
  rw [List.append_assoc, h] at hsame
  rw [First, hi, hsame]

theorem First.unique {pat a b a' b' : Str} (h : First pat a) (h' : First pat a')
    (he : a ++ (pat ++ b) = a' ++ (pat ++ b')) : a = a' ∧ b = b' := by
  have hfound := findStr_of_first h b
  rw [he, findStr_of_first h' b'] at hfound
  obtain ⟨rfl, hrest⟩ := append_split_eq he (Option.some.inj hfound).symm
  exact ⟨rfl, List.append_cancel_left hrest⟩

theorem First.le {pat a b x y : Str} (h : First pat a) (he : a ++ (pat ++ b) = x ++ (pat ++ y)) :
    len a ≤ len x := by
  obtain ⟨i, hi, hle⟩ := @findStr_le pat x y
  rw [← he, findStr_of_first h b] at hi
  cases hi
  exact hle

theorem findChar_eq_some {p : Char → Bool} {s : Str} {i : Nat} (h : findChar p s = some i) :
    ∃ a c b, s = a ++ c :: b ∧ len a = i ∧ p c = true ∧ ∀ d ∈ a, p d = false := by
  induction s generalizing i with
  | nil => simp [findChar] at h
  | cons c s ih =>
      simp only [findChar] at h
      split at h
      · cases h; exact ⟨[], c, s, rfl, rfl, ‹_›, by simp⟩
      · simp only [Option.map_eq_some_iff] at h
        obtain ⟨j, hj, rfl⟩ := h
        obtain ⟨a, d, b, rfl, rfl, hd, ha⟩ := ih hj
        exact ⟨c :: a, d, b, rfl, rfl, hd, by simpa [‹¬ _›] using ha⟩

theorem rfindChar_eq_none {p : Char → Bool} {s : Str} (h : rfindChar p s = none) :
    ∀ c ∈ s, p c = false := by
  induction s with
  | nil => simp
  | cons c s ih =>
      simp only [rfindChar] at h
      split at h
      · cases h
      · rename_i hs
        split at h
        · cases h
        · rename_i hc
          intro d hd
          rcases List.mem_cons.mp hd with rfl | hd
          · simpa using hc
          · exact ih hs d hd

theorem rfindChar_eq_some {p : Char → Bool} {s : Str} {i : Nat} (h : rfindChar p s = some i) :
    ∃ a c b, s = a ++ c :: b ∧ len a = i ∧ p c = true ∧ ∀ d ∈ b, p d = false := by
  induction s generalizing i with
  | nil => simp [rfindChar] at h
  | cons c s ih =>
      simp only [rfindChar] at h
      split at h
      · rename_i j hj
        cases h
        obtain ⟨a, d, b, rfl, rfl, hd, hb⟩ := ih hj
        exact ⟨c :: a, d, b, rfl, rfl, hd, hb⟩
      · rename_i hs
        split at h
        · cases h
          exact ⟨[], c, s, rfl, rfl, ‹_›, rfindChar_eq_none hs⟩
        · cases h

/-- The last character that passes the test is the one found. -/
theorem rfindChar_append {p : Char → Bool} {a b : Str} {c : Char} (hc : p c = true)
    (hb : ∀ d ∈ b, p d = false) : rfindChar p (a ++ c :: b) = some (len a) := by
  have hnone : rfindChar p b = none := by
    induction b with
    | nil => rfl
    | cons d b ih =>
        rw [List.forall_mem_cons] at hb
        simp only [rfindChar, ih hb.2, hb.1, Bool.false_eq_true, ↓reduceIte]
  induction a with
  | nil => simp only [List.nil_append, rfindChar, hnone, hc, ↓reduceIte, len_nil]
  | cons d a ih => simp only [List.cons_append, rfindChar, ih, len_cons]

/-- Every start reported by `match_indices` is an occurrence of the pattern. -/
theorem mem_matchIndicesFrom {pat : Str} {off skip i : Nat} {s : Str}
    (h : i ∈ matchIndicesFrom pat off skip s) :
    ∃ a b, s = a ++ pat ++ b ∧ off + len a = i := by
  induction s generalizing off skip with
  | nil => cases skip <;> simp [matchIndicesFrom] at h
  | cons c s ih =>
      have step : ∀ k, i ∈ matchIndicesFrom pat (off + c.utf8Size) k s →
          ∃ a b, c :: s = a ++ pat ++ b ∧ off + len a = i := by
        intro k hk
        obtain ⟨a, b, rfl, rfl⟩ := ih hk
        exact ⟨c :: a, b, rfl, by simp only [len_cons]; omega⟩
      cases skip with
      | succ k => exact step k (by simpa [matchIndicesFrom] using h)
      | zero =>
          simp only [matchIndicesFrom] at h
          split at h
          · rename_i hp
            rcases List.mem_cons.mp h with rfl | h
            · obtain ⟨b, hb⟩ := List.isPrefixOf_iff_prefix.mp hp
              exact ⟨[], b, by simp [hb], rfl⟩
            · exact step _ h
          · exact step _ h

theorem mem_matchIndices {pat s : Str} {i : Nat} (h : i ∈ matchIndices pat s) :
    ∃ a b, s = a ++ pat ++ b ∧ len a = i := by
  obtain ⟨a, b, hs, hi⟩ := mem_matchIndicesFrom h
  exact ⟨a, b, hs, by omega⟩

/-- No earlier occurrence of the pattern reaches into the one after `a`. -/
def Apart (pat a b : Str) : Prop :=
  ∀ a' b', a ++ pat ++ b = a' ++ pat ++ b' → a'.length < a.length →
    a'.length + pat.length ≤ a.length

/-- `match_indices` reports an occurrence that no earlier one reaches into. -/
theorem mem_matchIndicesFrom_of_apart {pat a b : Str} (hpat : pat ≠ []) (h : Apart pat a b)
    {off skip : Nat} (hskip : skip ≤ a.length) :
    off + len a ∈ matchIndicesFrom pat off skip (a ++ pat ++ b) := by
  induction a generalizing off skip with
  | nil =>
      obtain rfl := Nat.le_zero.mp hskip
      cases pat with
      | nil => exact absurd rfl hpat
      | cons c pat => simp [matchIndicesFrom]
  | cons c a ih =>
      have htail : Apart pat a b := by
        intro a' b' he hlt
        have := h (c :: a') b' (by simpa using he) (Nat.succ_lt_succ hlt)
        simp only [List.length_cons] at this
        omega
      have hoff : off + len (c :: a) = off + c.utf8Size + len a := by
        rw [len_cons]
        omega
      rw [hoff]
      cases skip with
      | succ skip => exact ih htail (Nat.le_of_succ_le_succ hskip)
      | zero =>
          simp only [List.cons_append, matchIndicesFrom]
          split
          · rename_i hp
            obtain ⟨rest, hrest⟩ := List.isPrefixOf_iff_prefix.mp hp
            have hlen := h [] rest (by simpa using hrest.symm) (Nat.succ_pos _)
            simp only [List.length_nil, List.length_cons] at hlen
            exact List.mem_cons_of_mem _ (ih htail (by omega))
          · exact ih htail (Nat.zero_le _)

theorem mem_matchIndices_of_apart {pat a b : Str} (hpat : pat ≠ []) (h : Apart pat a b) :
    len a ∈ matchIndices pat (a ++ pat ++ b) := by
  have := @mem_matchIndicesFrom_of_apart _ _ _ hpat h 0 0 (Nat.zero_le _)
  rwa [Nat.zero_add] at this

/-! ## ASCII -/

/-- `char::is_ascii`. -/
def isAscii (c : Char) : Bool := c.toNat ≤ 127

/-- `char::is_ascii_digit`. -/
def isAsciiDigit (c : Char) : Bool := 48 ≤ c.toNat && c.toNat ≤ 57

/-- `char::is_ascii_uppercase`. -/
def isAsciiUppercase (c : Char) : Bool := 65 ≤ c.toNat && c.toNat ≤ 90

/-- `char::is_ascii_lowercase`. -/
def isAsciiLowercase (c : Char) : Bool := 97 ≤ c.toNat && c.toNat ≤ 122

/-- `char::is_ascii_alphanumeric`. -/
def isAsciiAlphanumeric (c : Char) : Bool :=
  isAsciiDigit c || isAsciiUppercase c || isAsciiLowercase c

/-- `char::to_ascii_lowercase`. -/
def toAsciiLowercase (c : Char) : Char :=
  if isAsciiUppercase c then Char.ofNat (c.toNat + 32) else c

/-- `char::to_ascii_uppercase`. -/
def toAsciiUppercase (c : Char) : Char :=
  if isAsciiLowercase c then Char.ofNat (c.toNat - 32) else c

/-- `char::is_control`: the general category `Cc`. -/
def isControl (c : Char) : Bool := c.toNat ≤ 31 || (127 ≤ c.toNat && c.toNat ≤ 159)

/-- `char::is_whitespace`: the property `White_Space`. -/
def isWhitespace (c : Char) : Bool :=
  let n := c.toNat
  (9 ≤ n && n ≤ 13) || n = 32 || n = 0x85 || n = 0xA0 || n = 0x1680 || (0x2000 ≤ n && n ≤ 0x200A)
    || n = 0x2028 || n = 0x2029 || n = 0x202F || n = 0x205F || n = 0x3000

/-! ## Trimming and lines -/

/-- `str::trim_end_matches` for a predicate on characters. -/
def trimEndMatches (p : Char → Bool) (s : Str) : Str := (s.reverse.dropWhile p).reverse

/-- `str::trim_start`. -/
def trimStart (s : Str) : Str := s.dropWhile isWhitespace

/-- `str::trim`. -/
def trim (s : Str) : Str := trimEndMatches isWhitespace (trimStart s)

/-- `str::strip_prefix`. -/
def stripPrefix (pat s : Str) : Option Str :=
  if pat.isPrefixOf s then some (s.drop pat.length) else none

/-- `str::split_inclusive('\n')`: the lines, each with its line feed. -/
def splitInclusive : Str → List Str
  | [] => []
  | c :: s =>
      if c = '\n' then [c] :: splitInclusive s
      else
        match splitInclusive s with
        | [] => [[c]]
        | line :: lines => (c :: line) :: lines

theorem toNat_ofNat {n : Nat} (h : n.isValidChar) : (Char.ofNat n).toNat = n := by
  rw [Char.ofNat, dif_pos h]; rfl

theorem utf8Size_of_isAscii {c : Char} (h : isAscii c = true) : c.utf8Size = 1 := by
  simp only [isAscii, decide_eq_true_eq] at h
  exact Char.utf8Size_eq_one_iff.mpr (by simpa [UInt32.le_iff_toNat_le] using h)

theorem len_of_isAscii {s : Str} (h : ∀ c ∈ s, isAscii c = true) : len s = s.length := by
  induction s with
  | nil => rfl
  | cons c s ih =>
      obtain ⟨hc, hs⟩ := List.forall_mem_cons.mp h
      rw [len_cons, utf8Size_of_isAscii hc, ih hs, List.length_cons, Nat.add_comm]

/-- Every offset into ASCII text is a boundary. -/
theorem isCharBoundary_of_isAscii {s : Str} (h : ∀ c ∈ s, isAscii c = true) {n : Nat}
    (hn : n ≤ len s) : isCharBoundary s n = true := by
  rw [len_of_isAscii h] at hn
  refine isCharBoundary_iff.mpr ⟨s.take n, s.drop n, (List.take_append_drop n s).symm, ?_⟩
  rw [len_of_isAscii fun c hc => h c (List.mem_of_mem_take hc), List.length_take]
  omega

theorem isAscii_of_utf8Size {c : Char} (h : c.utf8Size = 1) : isAscii c = true := by
  have := Char.utf8Size_eq_one_iff.mp h
  simpa [isAscii, UInt32.le_iff_toNat_le] using this

theorem utf8Size_toAsciiLowercase (c : Char) : (toAsciiLowercase c).utf8Size = c.utf8Size := by
  unfold toAsciiLowercase
  split
  · rename_i h
    have hr : 65 ≤ c.toNat ∧ c.toNat ≤ 90 := by simpa [isAsciiUppercase] using h
    have hlow : isAscii (Char.ofNat (c.toNat + 32)) = true := by
      rw [isAscii, toNat_ofNat (.inl (by omega)), decide_eq_true_eq]; omega
    have hup : isAscii c = true := by rw [isAscii, decide_eq_true_eq]; omega
    rw [utf8Size_of_isAscii hlow, utf8Size_of_isAscii hup]
  · rfl

@[simp] theorem len_map_toAsciiLowercase (s : Str) : len (s.map toAsciiLowercase) = len s := by
  induction s with
  | nil => rfl
  | cons c s ih => simp only [List.map_cons, len_cons, ih, utf8Size_toAsciiLowercase]

/-- No boundary lies inside a character that is not ASCII. -/
theorem not_isCharBoundary_wide {a b : Str} {c : Char} (h : isAscii c = false) :
    isCharBoundary (a ++ c :: b) (len a + 1) = false := by
  by_contra hb
  obtain ⟨a', b', hs, hl⟩ := isCharBoundary_iff.mp (by simpa using hb)
  obtain ⟨m, rfl, hm⟩ := append_split_le hs (by omega)
  cases m with
  | nil => simp only [List.append_nil] at hl; omega
  | cons d m =>
      obtain ⟨rfl, _⟩ := List.cons.inj hm
      simp only [len_append, len_cons] at hl
      have hpos := c.utf8Size_pos
      rw [isAscii_of_utf8Size (by omega)] at h
      cases h

end AgentVeil.Rust
