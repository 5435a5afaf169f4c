import AgentVeil.Rust.Text

/-!
# The UTF-8 bytes of a string

`String::as_bytes` and `String::from_utf8`. A byte below `0x80` is a whole character, so bytes and
text split at the same places there.
-/

namespace AgentVeil.Rust

/-- `str::as_bytes`. -/
def bytes (s : Str) : List UInt8 := s.flatMap String.utf8EncodeChar

/-- The character at the front of a byte string, when its bytes are a valid encoding. -/
def decodeChar? (bs : List UInt8) : Option Char := ByteArray.utf8DecodeChar? ⟨⟨bs⟩⟩ 0

/-- The decoding loop; `skip` bytes still belong to the last character. -/
def fromUtf8From : Nat → List UInt8 → Option Str
  | _, [] => some []
  | skip + 1, _ :: bs => fromUtf8From skip bs
  | 0, b :: bs =>
      match decodeChar? (b :: bs) with
      | none => none
      | some c => (fromUtf8From (c.utf8Size - 1) bs).map (c :: ·)

/-- `String::from_utf8`. -/
def fromUtf8 (bs : List UInt8) : Option Str := fromUtf8From 0 bs

@[simp] theorem bytes_nil : bytes [] = [] := rfl
@[simp] theorem bytes_cons (c : Char) (s : Str) :
    bytes (c :: s) = String.utf8EncodeChar c ++ bytes s := rfl
@[simp] theorem bytes_append (s t : Str) : bytes (s ++ t) = bytes s ++ bytes t :=
  List.flatMap_append

@[simp] theorem length_bytes (s : Str) : (bytes s).length = len s := by
  induction s with
  | nil => rfl
  | cons c s ih => simp [ih]

/-! ## Decoding -/

theorem decodeChar?_eq_some {bs : List UInt8} {c : Char} (h : decodeChar? bs = some c) :
    ∃ t, bs = String.utf8EncodeChar c ++ t := by
  obtain ⟨l, hl⟩ := ByteArray.exists_of_utf8DecodeChar?_eq_some h
  refine ⟨l.data.toList, ?_⟩
  have := congrArg (fun b : ByteArray => b.data.toList) hl
  simpa using this

theorem decodeChar?_append (c : Char) (t : List UInt8) :
    decodeChar? (String.utf8EncodeChar c ++ t) = some c := by
  have h := ByteArray.utf8DecodeChar?_utf8EncodeChar_append (b := ⟨⟨t⟩⟩) (c := c)
  rw [decodeChar?, ← h]
  congr 1
  ext1
  simp

theorem fromUtf8From_skip (n : Nat) (l t : List UInt8) (h : l.length = n) :
    fromUtf8From n (l ++ t) = fromUtf8From 0 t := by
  induction l generalizing n with
  | nil => cases h; rfl
  | cons b l ih =>
      cases n with
      | zero => cases h
      | succ n => exact ih n (by simpa using h)

/-- Encoded text decodes to itself. -/
theorem fromUtf8_bytes (s : Str) : fromUtf8 (bytes s) = some s := by
  unfold fromUtf8
  induction s with
  | nil => rfl
  | cons c s ih =>
      have hd := decodeChar?_append c (bytes s)
      have hlen := String.length_utf8EncodeChar c
      cases hc : String.utf8EncodeChar c with
      | nil => have := c.utf8Size_pos; rw [hc] at hlen; simp at hlen; omega
      | cons b bs =>
          rw [hc, List.cons_append] at hd
          rw [hc, List.length_cons] at hlen
          simp only [bytes_cons, hc, List.cons_append, fromUtf8From, hd]
          rw [fromUtf8From_skip _ bs _ (by omega), ih, Option.map_some]

/-- What decodes is the encoding of its text. -/
theorem bytes_of_fromUtf8 {bs : List UInt8} {s : Str} (h : fromUtf8 bs = some s) :
    bytes s = bs := by
  unfold fromUtf8 at h
  induction s generalizing bs with
  | nil =>
      cases bs with
      | nil => rfl
      | cons b bs =>
          simp only [fromUtf8From] at h
          split at h <;> simp at h
  | cons c s ih =>
      cases bs with
      | nil => simp [fromUtf8From] at h
      | cons b bs =>
          simp only [fromUtf8From] at h
          split at h
          · cases h
          · rename_i c' hd
            simp only [Option.map_eq_some_iff, List.cons.injEq] at h
            obtain ⟨s', hs, rfl, rfl⟩ := h
            obtain ⟨t, ht⟩ := decodeChar?_eq_some hd
            have hlen := String.length_utf8EncodeChar c'
            cases hc : String.utf8EncodeChar c' with
            | nil => have := c'.utf8Size_pos; rw [hc] at hlen; simp at hlen; omega
            | cons x xs =>
                rw [hc, List.cons_append, List.cons.injEq] at ht
                obtain ⟨rfl, rfl⟩ := ht
                rw [hc, List.length_cons] at hlen
                rw [fromUtf8From_skip _ xs _ (by omega)] at hs
                simp [hc, ih hs]

/-! ## Bytes below `0x80` -/

theorem utf8EncodeChar_of_isAscii {c : Char} (h : isAscii c = true) :
    String.utf8EncodeChar c = [UInt8.ofNat c.toNat] := by
  simp only [isAscii, decide_eq_true_eq] at h
  exact if_pos h

/-- Every byte of a longer encoding is at least `0x80`. -/
theorem le_of_mem_utf8EncodeChar {c : Char} (h : isAscii c = false) {b : UInt8}
    (hb : b ∈ String.utf8EncodeChar c) : 128 ≤ b.toNat := by
  simp only [isAscii, decide_eq_false_iff_not, Nat.not_le] at h
  have hv : c.val.toNat = c.toNat := rfl
  have hmax : c.toNat < 1114112 := by
    rcases c.valid with hc | hc <;> simp only [Char.toNat] at * <;> omega
  unfold String.utf8EncodeChar at hb
  simp only [hv] at hb
  split at hb
  · omega
  · split at hb
    · simp only [List.mem_cons, List.not_mem_nil, or_false] at hb
      rcases hb with rfl | rfl <;> simp only [UInt8.toNat_ofNat'] <;> omega
    · split at hb
      · simp only [List.mem_cons, List.not_mem_nil, or_false] at hb
        rcases hb with rfl | rfl | rfl <;> simp only [UInt8.toNat_ofNat'] <;> omega
      · simp only [List.mem_cons, List.not_mem_nil, or_false] at hb
        rcases hb with rfl | rfl | rfl | rfl <;> simp only [UInt8.toNat_ofNat'] <;> omega

theorem ne_of_mem_utf8EncodeChar {c d : Char} (hd : isAscii d = true) (h : c ≠ d) {b : UInt8}
    (hb : b ∈ String.utf8EncodeChar c) : b ≠ UInt8.ofNat d.toNat := by
  rintro rfl
  have hd' : d.toNat ≤ 127 := by simpa [isAscii] using hd
  cases hc : isAscii c with
  | true =>
      have hc' : c.toNat ≤ 127 := by simpa [isAscii] using hc
      rw [utf8EncodeChar_of_isAscii hc, List.mem_singleton, ← UInt8.toNat_inj, UInt8.toNat_ofNat',
        UInt8.toNat_ofNat'] at hb
      exact h (Char.toNat_inj.mp (by omega))
  | false =>
      have := le_of_mem_utf8EncodeChar hc hb
      rw [UInt8.toNat_ofNat'] at this
      omega

/-- A byte below `0x80` is a character of the text, at a boundary. -/
theorem bytes_split_ascii {s : Str} {p q : List UInt8} {b : UInt8} (hb : b.toNat < 128)
    (h : bytes s = p ++ b :: q) :
    ∃ s₁ c s₂, s = s₁ ++ c :: s₂ ∧ bytes s₁ = p ∧ isAscii c = true ∧
      b = UInt8.ofNat c.toNat ∧ bytes s₂ = q := by
  induction s generalizing p with
  | nil => simp at h
  | cons c s ih =>
      cases hc : isAscii c with
      | true =>
          rw [bytes_cons, utf8EncodeChar_of_isAscii hc] at h
          cases p with
          | nil =>
              simp only [List.cons_append, List.nil_append, List.cons.injEq] at h
              exact ⟨[], c, s, rfl, rfl, hc, h.1.symm, h.2⟩
          | cons x p =>
              simp only [List.cons_append, List.nil_append, List.cons.injEq] at h
              obtain ⟨s₁, d, s₂, rfl, rfl, hd, hbd, hq⟩ := ih h.2
              exact ⟨c :: s₁, d, s₂, rfl, by simp [utf8EncodeChar_of_isAscii hc, h.1], hd, hbd, hq⟩
      | false =>
          rw [bytes_cons] at h
          -- the byte lies past the whole encoding of `c`, whose bytes are all at least `0x80`
          rcases List.append_eq_append_iff.mp h with ⟨m, rfl, hm⟩ | ⟨m, hm, hq⟩
          · obtain ⟨s₁, d, s₂, rfl, rfl, hd, hbd, hq⟩ := ih hm
            exact ⟨c :: s₁, d, s₂, rfl, by simp, hd, hbd, hq⟩
          · cases m with
            | nil =>
                simp only [List.nil_append] at hq
                obtain ⟨s₁, d, s₂, rfl, h₁, hd, hbd, hq'⟩ := ih (p := []) (by simpa using hq.symm)
                refine ⟨c :: s₁, d, s₂, rfl, ?_, hd, hbd, hq'⟩
                rw [bytes_cons, h₁, hm]; simp
            | cons x m =>
                simp only [List.cons_append, List.cons.injEq] at hq
                have : b ∈ String.utf8EncodeChar c := by rw [hm, hq.1]; simp
                have := le_of_mem_utf8EncodeChar hc this
                omega

theorem feed_mem_bytes {s : Str} (h : 0x0A ∈ bytes s) : '\n' ∈ s := by
  obtain ⟨p, q, hpq⟩ := List.append_of_mem h
  obtain ⟨a, c, b, rfl, _, hc, hbyte, _⟩ := bytes_split_ascii (by decide) hpq
  have hn : c.toNat = 10 := by
    have := congrArg UInt8.toNat hbyte
    have hle : c.toNat ≤ 127 := by simpa [isAscii] using hc
    rw [UInt8.toNat_ofNat', Nat.mod_eq_of_lt (by omega)] at this
    exact this.symm
  have : c = '\n' := Char.toNat_inj.mp hn
  simp [this]

/-- ASCII bytes in the encoding are ASCII text at a boundary. -/
theorem bytes_split_text {s t : Str} {p q : List UInt8} (ht : ∀ c ∈ t, isAscii c = true)
    (hne : t ≠ []) (h : bytes s = p ++ bytes t ++ q) :
    ∃ s₁ s₂, s = s₁ ++ t ++ s₂ ∧ bytes s₁ = p ∧ bytes s₂ = q := by
  induction t generalizing s p with
  | nil => exact absurd rfl hne
  | cons c t ih =>
      have hc := ht c (by simp)
      have hcn : c.toNat ≤ 127 := by simpa [isAscii] using hc
      have hbyte : (UInt8.ofNat c.toNat).toNat = c.toNat := by
        rw [UInt8.toNat_ofNat']; omega
      rw [bytes_cons, utf8EncodeChar_of_isAscii hc] at h
      obtain ⟨s₁, d, s₂, rfl, rfl, hd, hbd, hq⟩ :=
        bytes_split_ascii (b := UInt8.ofNat c.toNat) (by omega)
          (h.trans (by simp : _ = p ++ UInt8.ofNat c.toNat :: (bytes t ++ q)))
      have hdn : d.toNat ≤ 127 := by simpa [isAscii] using hd
      have hdc : d = c := by
        have := congrArg UInt8.toNat hbd
        rw [hbyte, UInt8.toNat_ofNat'] at this
        exact Char.toNat_inj.mp (by omega)
      subst hdc
      cases t with
      | nil => exact ⟨s₁, s₂, by simp, rfl, by simpa using hq⟩
      | cons e t =>
          obtain ⟨r₁, r₂, rfl, hr, hq'⟩ :=
            ih (s := s₂) (p := []) (fun x hx => ht x (by simp [hx])) (by simp) (by simpa using hq)
          have : r₁ = [] := len_eq_zero.mp (by rw [← length_bytes, hr]; rfl)
          subst this
          exact ⟨s₁, r₂, by simp, rfl, hq'⟩

end AgentVeil.Rust
