import AgentVeil.Rust.Regex
import Mathlib.Data.List.Pairwise

/-!
# Texts put together from gaps and parts

A text with parts written into it. When the parts are matches of a pattern whose matches never overlap,
and the gaps hold no match, a search finds the parts and nothing else.
-/

namespace AgentVeil.Rust

variable {α : Type}

/-- The parts `w a`, each after its gap, and the text after the last part. -/
def splice (w : α → Str) : List (Str × α) → Str → Str
  | [], last => last
  | p :: rest, last => p.1 ++ w p.2 ++ splice w rest last

/-- The parts of a splice, each with the text before it. -/
def places (w : α → Str) : Str → List (Str × α) → List (Str × Str)
  | _, [] => []
  | before, p :: rest => (before ++ p.1, w p.2) :: places w (before ++ p.1 ++ w p.2) rest

@[simp] theorem splice_nil (w : α → Str) (last : Str) : splice w [] last = last := rfl

@[simp] theorem splice_cons (w : α → Str) (p : Str × α) (rest : List (Str × α)) (last : Str) :
    splice w (p :: rest) last = p.1 ++ w p.2 ++ splice w rest last := rfl

theorem splice_congr {w w' : α → Str} {ps : List (Str × α)} {last : Str}
    (h : ∀ p ∈ ps, w p.2 = w' p.2) : splice w ps last = splice w' ps last := by
  induction ps with
  | nil => rfl
  | cons p ps ih =>
      obtain ⟨hp, hps⟩ := List.forall_mem_cons.mp h
      rw [splice_cons, splice_cons, hp, ih hps]

theorem splice_append (w : α → Str) (ps : List (Str × α)) (s t : Str) :
    splice w ps (s ++ t) = splice w ps s ++ t := by
  induction ps with
  | nil => rfl
  | cons p ps ih => simp only [splice_cons, ih, List.append_assoc]

/-- The last part of a splice stands before the text after it. -/
theorem splice_concat (w : α → Str) (ps : List (Str × α)) (gap : Str) (a : α) (last : Str) :
    splice w (ps ++ [(gap, a)]) last = splice w ps (gap ++ w a ++ last) := by
  induction ps with
  | nil => rfl
  | cons p ps ih => simp only [List.cons_append, splice_cons, ih]

theorem places_concat (w : α → Str) (before : Str) (ps : List (Str × α)) (gap : Str) (a : α) :
    places w before (ps ++ [(gap, a)]) = places w before ps ++ [(before ++ splice w ps gap, w a)] := by
  induction ps generalizing before with
  | nil => rfl
  | cons p ps ih => simp [places, ih]

/-- The text up to the end of a place begins the splice. -/
theorem mem_places {w : α → Str} {ps : List (Str × α)} {before last : Str} {q : Str × Str}
    (h : q ∈ places w before ps) : ∃ rest, before ++ splice w ps last = q.1 ++ q.2 ++ rest := by
  induction ps generalizing before with
  | nil => cases h
  | cons p ps ih =>
      rcases List.mem_cons.mp h with rfl | h
      · exact ⟨splice w ps last, by simp⟩
      · obtain ⟨rest, hrest⟩ := ih h
        exact ⟨rest, by rw [← hrest]; simp⟩

theorem exists_place (w : α → Str) (before : Str) {ps : List (Str × α)} {p : Str × α} (hp : p ∈ ps) :
    ∃ b, (b, w p.2) ∈ places w before ps := by
  induction ps generalizing before with
  | nil => cases hp
  | cons x ps ih =>
      rcases List.mem_cons.mp hp with rfl | hp
      · exact ⟨_, List.mem_cons_self⟩
      · obtain ⟨b, hb⟩ := ih (before ++ x.1 ++ w x.2) hp
        exact ⟨b, List.mem_cons_of_mem _ hb⟩

theorem pairwise_places (w : α → Str) (before : Str) (ps : List (Str × α)) :
    (∀ q ∈ places w before ps, before.length ≤ q.1.length) ∧
      (places w before ps).Pairwise fun q q' => q.1.length + q.2.length ≤ q'.1.length := by
  induction ps generalizing before with
  | nil => exact ⟨by simp [places], .nil⟩
  | cons p ps ih =>
      obtain ⟨hle, hpair⟩ := ih (before ++ p.1 ++ w p.2)
      constructor
      · intro q hq
        rcases List.mem_cons.mp hq with rfl | hq
        · simp
        · have := hle q hq
          simp only [List.length_append] at this
          omega
      · apply List.Pairwise.cons _ hpair
        intro q hq
        have := hle q hq
        simp only [List.length_append] at this ⊢
        omega

/-- No part of the text has the property. -/
def Free (P : Str → Prop) (s : Str) : Prop := ∀ p t q, s = p ++ t ++ q → ¬P t

/-- Parts of a text in their order make it a splice. When they are all its parts with a property, the
gaps are free of it. -/
theorem exists_splice {P : Str → Prop} {before s : Str} {qs : List (Str × Str)}
    (parts : ∀ q ∈ qs, q.2 ≠ [] ∧ before.length ≤ q.1.length ∧ ∃ rest, before ++ s = q.1 ++ q.2 ++ rest)
    (ordered : qs.Pairwise fun q q' => q.1.length + q.2.length ≤ q'.1.length)
    (complete : ∀ p t q, s = p ++ t ++ q → P t → (before ++ p, t) ∈ qs) :
    ∃ ps last, splice id ps last = s ∧ places id before ps = qs ∧ (∀ p ∈ ps, Free P p.1) ∧
      Free P last := by
  induction qs generalizing before s with
  | nil =>
      refine ⟨[], s, rfl, rfl, by simp, ?_⟩
      intro p t q h ht
      cases complete p t q h ht
  | cons q qs ih =>
      obtain ⟨⟨hne, hle, rest, hrest⟩, hparts⟩ := List.forall_mem_cons.mp parts
      obtain ⟨hafter, hordered⟩ := List.pairwise_cons.mp ordered
      obtain ⟨place, part⟩ := q
      simp only at hne hle hrest hafter
      have hpos : 0 < part.length := List.length_pos_iff.mpr hne
      obtain ⟨gap, rfl⟩ : before <+: place :=
        List.prefix_of_prefix_length_le ⟨s, hrest⟩ ⟨part ++ rest, by simp⟩ hle
      have hs : s = gap ++ part ++ rest := by simpa using hrest
      obtain ⟨ps, last, hsplice, hplaces, hgaps, hlast⟩ : ∃ ps last, splice id ps last = rest ∧
          places id (before ++ gap ++ part) ps = qs ∧ (∀ p ∈ ps, Free P p.1) ∧ Free P last := by
        apply ih _ hordered
        · intro p t q h ht
          have hmem := complete (gap ++ part ++ p) t q (by rw [hs, h]; simp) ht
          rcases List.mem_cons.mp hmem with heq | hmem
          · have hlen := congrArg List.length (Prod.mk.inj heq).1
            simp only [List.length_append] at hlen
            omega
          · simpa using hmem
        · intro q hq
          obtain ⟨hne, _, rest', hrest'⟩ := hparts q hq
          have hle := hafter q hq
          have hlen : (before ++ gap ++ part).length ≤ q.1.length := by
            rw [List.length_append]
            exact hle
          exact ⟨hne, hlen, rest', by rw [← hrest', hs]; simp⟩
      refine ⟨(gap, part) :: ps, last, by simp [hsplice, hs], by rw [places, ← hplaces]; rfl,
        List.forall_mem_cons.mpr ⟨?_, hgaps⟩, hlast⟩
      -- a part in the gap would come before the first
      intro p t q h ht
      simp only at h
      have hmem := complete p t (q ++ part ++ rest) (by rw [hs, h]; simp) ht
      have hgap := congrArg List.length h
      simp only [List.length_append] at hgap
      rcases List.mem_cons.mp hmem with heq | hmem
      · obtain ⟨heq, ht⟩ := Prod.mk.inj heq
        have hlen := congrArg List.length heq
        simp only [List.length_append] at hlen
        rw [ht] at hgap
        omega
      · have hle := hafter _ hmem
        simp only [List.length_append] at hle
        omega

namespace Regex

/-- The pattern matches the text wherever it stands. -/
def Matches (r : Regex) (t : Str) : Prop := ∀ b a, Derives r b t a

/-- A pattern that does not look around, and whose matches in a text are the same or apart. -/
structure Separates (r : Regex) : Prop where
  nonEmpty : NonEmpty r
  free {b t a} : Derives r b t a → Matches r t
  apart {p t q p' t' q'} : Matches r t → Matches r t' → p ++ t ++ q = p' ++ t' ++ q' →
    (p = p' ∧ t = t') ∨ len p + len t ≤ len p' ∨ len p' + len t' ≤ len p

variable {r : Regex} {w : α → Str} {ps : List (Str × α)} {last : Str}

theorem matches_of_mem_places {before : Str} (parts : ∀ p ∈ ps, Matches r (w p.2)) {q : Str × Str}
    (hq : q ∈ places w before ps) : Matches r q.2 := by
  induction ps generalizing before with
  | nil => cases hq
  | cons p ps ih =>
      obtain ⟨hp, hps⟩ := List.forall_mem_cons.mp parts
      rcases List.mem_cons.mp hq with rfl | hq
      · exact hp
      · exact ih hps hq

/-- A match in a splice is one of its parts. -/
theorem Separates.mem_places (hr : Separates r) (parts : ∀ p ∈ ps, Matches r (w p.2))
    (gaps : ∀ p ∈ ps, Free (Matches r) p.1) (hlast : Free (Matches r) last) {before p t q : Str}
    (ht : Matches r t) (h : splice w ps last = p ++ t ++ q) : (before ++ p, t) ∈ places w before ps := by
  induction ps generalizing before p with
  | nil => exact absurd ht (hlast p t q h)
  | cons x ps ih =>
      obtain ⟨gap, a⟩ := x
      obtain ⟨hpart, hparts⟩ := List.forall_mem_cons.mp parts
      obtain ⟨hgap, hgaps⟩ := List.forall_mem_cons.mp gaps
      rw [splice_cons] at h
      rcases hr.apart hpart ht h with ⟨rfl, rfl⟩ | hle | hle
      · exact List.mem_cons_self
      · -- the match lies after the part
        obtain ⟨p', rfl, hrest⟩ := append_split_le (h.trans (List.append_assoc ..))
          (by rwa [len_append])
        have hmem : (before ++ gap ++ w a ++ p', t) ∈ places w (before ++ gap ++ w a) ps :=
          ih hparts hgaps (by rw [hrest]; simp)
        exact List.mem_cons_of_mem _ (by simpa using hmem)
      · -- the match lies in the gap
        have hle' : len (p ++ t) ≤ len gap := by rwa [len_append]
        obtain ⟨q', hq', _⟩ := append_split_le
          (h.symm.trans (List.append_assoc gap (w a) _)) hle'
        exact absurd ht (hgap p t q' hq')

/-- A search finds a match where there is one. -/
theorem Separates.exists_findIter (hr : Separates r) {p t q : Str} (ht : Matches r t) :
    ∃ m ∈ findIter r (p ++ t ++ q), m.before.reverse = p ∧ m.text = t := by
  obtain ⟨m, hm, h₁, h₂⟩ := findIter_range_overlaps hr.nonEmpty (ht p.reverse q)
  obtain ⟨hs, hd⟩ := mem_findIter hm
  refine ⟨m, hm, ?_⟩
  rcases hr.apart (hr.free hd) ht hs.symm with h | h | h
  · exact h
  · rw [len_reverse] at h
    exact absurd h₂ (Nat.not_lt.mpr h)
  · rw [len_reverse] at h
    exact absurd h₁ (Nat.not_lt.mpr h)

/-- A search in a splice of matches finds its parts in their order. -/
theorem Separates.findIter_splice (hr : Separates r) (parts : ∀ p ∈ ps, Matches r (w p.2))
    (gaps : ∀ p ∈ ps, Free (Matches r) p.1) (hlast : Free (Matches r) last) :
    (findIter r (splice w ps last)).map (fun m => (m.before.reverse, m.text)) = places w [] ps := by
  have hfound : ((findIter r (splice w ps last)).map fun m => (m.before.reverse, m.text)).Pairwise
      fun q q' => q.1.length + q.2.length ≤ q'.1.length := by
    rw [List.pairwise_map]
    exact (findFrom_pairwise hr.nonEmpty).imp fun h => by simpa using h
  have hplaces := (pairwise_places w [] ps).2
  have hmem : ∀ q, q ∈ (findIter r (splice w ps last)).map (fun m => (m.before.reverse, m.text)) ↔
      q ∈ places w [] ps := by
    intro q
    rw [List.mem_map]
    constructor
    · rintro ⟨m, hm, rfl⟩
      obtain ⟨hs, hd⟩ := mem_findIter hm
      have hmem : ([] ++ m.before.reverse, m.text) ∈ places w [] ps :=
        hr.mem_places parts gaps hlast (hr.free hd) hs
      exact hmem
    · intro hq
      obtain ⟨rest, hrest⟩ : ∃ rest, [] ++ splice w ps last = q.1 ++ q.2 ++ rest :=
        Rust.mem_places hq
      rw [List.nil_append] at hrest
      have ht := matches_of_mem_places parts hq
      obtain ⟨m, hm, hbefore, htext⟩ : ∃ m ∈ findIter r (q.1 ++ q.2 ++ rest),
          m.before.reverse = q.1 ∧ m.text = q.2 := hr.exists_findIter ht
      rw [hrest]
      exact ⟨m, hm, by rw [hbefore, htext]⟩
  -- both lists are in order, and a match is not empty
  have hpos : ∀ q ∈ places w [] ps, 0 < q.2.length := by
    intro q hq
    obtain ⟨m, hm, rfl⟩ := List.mem_map.mp ((hmem q).mpr hq)
    exact List.length_pos_iff.mpr (hr.nonEmpty _ _ _ (mem_findIter hm).2)
  have hnodup : ∀ {l : List (Str × Str)}, (∀ q ∈ l, 0 < q.2.length) →
      l.Pairwise (fun q q' => q.1.length + q.2.length ≤ q'.1.length) → l.Nodup := by
    intro l hl hpair
    apply hpair.imp_of_mem
    rintro q _ hq _ hle rfl
    have := hl q hq
    omega
  apply List.Perm.eq_of_pairwise _ hfound hplaces
  · exact (List.perm_ext_iff_of_nodup (hnodup (fun q hq => hpos q ((hmem q).mp hq)) hfound)
      (hnodup hpos hplaces)).mpr hmem
  · intro q q' hq hq' hle hle'
    have := hpos q ((hmem q).mp hq)
    omega

/-- Every text is a splice of the matches that a search finds, and the gaps hold none. -/
theorem Separates.exists_splice (hr : Separates r) (s : Str) :
    ∃ ps last, splice id ps last = s ∧ (∀ p ∈ ps, Free (Matches r) p.1 ∧ Matches r p.2) ∧
      Free (Matches r) last ∧
      (findIter r s).map (fun m => (m.before.reverse, m.text)) = places id [] ps := by
  have hordered : ((findIter r s).map fun m => (m.before.reverse, m.text)).Pairwise
      fun q q' => q.1.length + q.2.length ≤ q'.1.length := by
    rw [List.pairwise_map]
    exact (findFrom_pairwise hr.nonEmpty).imp fun h => by simpa using h
  have hfound : ∀ q ∈ (findIter r s).map (fun m => (m.before.reverse, m.text)), q.2 ≠ [] ∧
      ([] : Str).length ≤ q.1.length ∧ (∃ rest, [] ++ s = q.1 ++ q.2 ++ rest) ∧ Matches r q.2 := by
    intro q hq
    obtain ⟨m, hm, rfl⟩ := List.mem_map.mp hq
    obtain ⟨hs, hd⟩ := mem_findIter hm
    exact ⟨hr.nonEmpty _ _ _ hd, Nat.zero_le _, ⟨_, hs⟩, hr.free hd⟩
  obtain ⟨ps, last, hsplice, hplaces, hgaps, hlast⟩ := Rust.exists_splice (P := Matches r)
    (fun q hq => ⟨(hfound q hq).1, (hfound q hq).2.1, (hfound q hq).2.2.1⟩) hordered
    (by
      intro p t q h ht
      obtain ⟨m, hm, hbefore, htext⟩ := hr.exists_findIter ht
      rw [List.nil_append]
      exact List.mem_map.mpr ⟨m, h ▸ hm, by rw [hbefore, htext]⟩)
  refine ⟨ps, last, hsplice, fun p hp => ⟨hgaps p hp, ?_⟩, hlast, hplaces.symm⟩
  obtain ⟨b, hmem⟩ := exists_place id [] hp
  rw [hplaces] at hmem
  exact (hfound _ hmem).2.2.2

end Regex

end AgentVeil.Rust
