import AgentVeil.Rust.Collections

/-!
# Hash maps in the order of a rank

A hash map whose values carry distinct ranks is a list: its entries from the least rank to the
greatest. Each operation on the map is one on the list, whatever order the hasher gives.
-/

namespace AgentVeil.Rust

variable {κ ν : Type} [DecidableEq κ] {rank : ν → Nat}

/-- `L` lists the entries of `m` by increasing rank. -/
structure Ranked (rank : ν → Nat) (m : HashMap κ ν) (L : List (κ × ν)) : Prop where
  perm : L.Perm m.entries
  increasing : L.Pairwise fun a b => rank a.2 < rank b.2

namespace Ranked

variable {m : HashMap κ ν} {L : List (κ × ν)}

omit [DecidableEq κ] in
theorem keys (h : Ranked rank m L) : (L.map Prod.fst).Nodup :=
  (h.perm.map Prod.fst).nodup_iff.mpr m.nodup

omit [DecidableEq κ] in
theorem length (h : Ranked rank m L) : L.length = m.size := h.perm.length_eq

theorem mem (h : Ranked rank m L) {k : κ} {v : ν} : (k, v) ∈ L ↔ m.get k = some v := by
  rw [HashMap.get_eq_some_iff]
  exact h.perm.mem_iff

/-- A lookup by key is a search in the list. -/
theorem get (h : Ranked rank m L) (k : κ) : m.get k = (L.find? (·.1 = k)).map Prod.snd := by
  cases hf : L.find? (·.1 = k) with
  | some e =>
      have hk : e.1 = k := by simpa using List.find?_some hf
      rw [← hk]
      exact h.mem.mp (List.mem_of_find?_eq_some hf)
  | none =>
      cases hg : m.get k with
      | none => rfl
      | some v =>
          have := List.find?_eq_none.mp hf _ (h.mem.mpr hg)
          simp at this

omit [DecidableEq κ] in
/-- A search that at most one entry answers does not depend on the order. -/
theorem find (h : Ranked rank m L) {p : κ × ν → Bool}
    (unique : ∀ a ∈ L, ∀ b ∈ L, p a = true → p b = true → a = b) : m.iter.find? p = L.find? p := by
  have hmem : ∀ e, e ∈ m.iter ↔ e ∈ L := fun e =>
    HashMap.mem_iter.trans h.perm.mem_iff.symm
  cases hf : L.find? p with
  | none =>
      rw [List.find?_eq_none] at hf ⊢
      intro e he
      exact hf e ((hmem e).mp he)
  | some a =>
      cases hg : m.iter.find? p with
      | none =>
          have := List.find?_eq_none.mp hg a ((hmem a).mpr (List.mem_of_find?_eq_some hf))
          exact absurd (List.find?_some hf) this
      | some b =>
          have hb := (hmem b).mp (List.mem_of_find?_eq_some hg)
          rw [unique b hb a (List.mem_of_find?_eq_some hf) (List.find?_some hg)
            (List.find?_some hf)]

omit [DecidableEq κ] in
/-- The entry of least rank is the head. -/
theorem head (h : Ranked rank m L) : minByKey (fun e => rank e.2) m.iter = L.head? := by
  cases hm : minByKey (fun e => rank e.2) m.iter with
  | none =>
      have hempty := minByKey_eq_none hm
      have hlen : L.length = 0 := by
        rw [h.perm.length_eq, ← (m.order_perm m.entries).length_eq]
        exact List.length_eq_zero_iff.mpr hempty
      rw [List.length_eq_zero_iff.mp hlen]
      rfl
  | some a =>
      obtain ⟨hmem, hmin⟩ := minByKey_spec hm
      have ha : a ∈ L := h.perm.mem_iff.mpr (HashMap.mem_iter.mp hmem)
      cases L with
      | nil => cases ha
      | cons b L =>
          rcases List.mem_cons.mp ha with rfl | ha
          · rfl
          · have hlt := (List.pairwise_cons.mp h.increasing).1 a ha
            have hle := hmin b (HashMap.mem_iter.mpr (h.perm.mem_iff.mp List.mem_cons_self))
            omega

omit [DecidableEq κ] in
theorem retain (h : Ranked rank m L) (p : κ → ν → Bool) :
    Ranked rank (m.retain p) (L.filter fun e => p e.1 e.2) where
  perm := h.perm.filter _
  increasing := h.increasing.filter _

/-- Removing the entry of least rank leaves the tail. -/
theorem remove_head {e : κ × ν} (h : Ranked rank m (e :: L)) : Ranked rank (m.remove e.1) L := by
  have hkeys := h.keys
  rw [List.map_cons, List.nodup_cons] at hkeys
  have hfilter : (e :: L).filter (fun e' => decide (e'.1 ≠ e.1)) = L := by
    rw [List.filter_cons_of_neg (by simp), List.filter_eq_self]
    intro e' he'
    have hne : e'.1 ≠ e.1 := fun heq => hkeys.1 (heq ▸ List.mem_map_of_mem he')
    exact decide_eq_true hne
  have hr := h.retain fun k _ => k ≠ e.1
  rw [hfilter] at hr
  exact hr

/-- Maps with the same entries have the same list. -/
theorem congr {m' : HashMap κ ν} (h : Ranked rank m L) (same : ∀ k, m'.get k = m.get k) :
    Ranked rank m' L where
  increasing := h.increasing
  perm := by
    refine h.perm.trans ((List.perm_ext_iff_of_nodup ?_ ?_).mpr fun e => ?_)
    · exact m.nodup.of_map _
    · exact m'.nodup.of_map _
    · rw [← HashMap.get_eq_some_iff, ← same, HashMap.get_eq_some_iff]

/-- An entry of a greater rank is put at the end. -/
theorem insert (h : Ranked rank m L) {k : κ} {v : ν}
    (greatest : ∀ k' v', m.get k' = some v' → k' ≠ k → rank v' < rank v) :
    Ranked rank (m.insert k v) (L.filter (fun e => decide (e.1 ≠ k)) ++ [(k, v)]) where
  perm := (List.perm_append_singleton _ _).trans ((h.retain fun k' _ => k' ≠ k).perm.cons _)
  increasing := by
    rw [List.pairwise_append]
    refine ⟨h.increasing.filter _, List.pairwise_singleton _ _, ?_⟩
    intro e he e' he'
    rw [List.mem_singleton.mp he']
    obtain ⟨hmem, hne⟩ := List.mem_filter.mp he
    exact greatest e.1 e.2 (h.mem.mp hmem) (of_decide_eq_true hne)

/-- An entry under a new key, of the greatest rank. -/
theorem insert_new (h : Ranked rank m L) {k : κ} {v : ν} (new : m.get k = none)
    (greatest : ∀ k' v', m.get k' = some v' → rank v' < rank v) :
    Ranked rank (m.insert k v) (L ++ [(k, v)]) := by
  have hfilter : L.filter (fun e => decide (e.1 ≠ k)) = L := by
    rw [List.filter_eq_self]
    rintro ⟨k', v'⟩ he
    apply decide_eq_true
    rintro rfl
    rw [h.mem.mp he] at new
    cases new
  have hi := h.insert (k := k) fun k' v' hget _ => greatest k' v' hget
  rw [hfilter] at hi
  exact hi

/-- An entry whose rank becomes the greatest goes to the end. -/
theorem modify (h : Ranked rank m L) {k : κ} {v : ν} {f : ν → ν} (found : m.get k = some v)
    (greatest : ∀ k' v', m.get k' = some v' → rank v' < rank (f v)) :
    Ranked rank (m.modify k f) (L.filter (fun e => decide (e.1 ≠ k)) ++ [(k, f v)]) := by
  have hi := h.insert (k := k) (v := f v) fun k' v' hget _ => greatest k' v' hget
  refine hi.congr fun k' => ?_
  rw [HashMap.get_modify, HashMap.get_insert]
  split
  · rename_i hk
    rw [hk, found]
    rfl
  · rfl

end Ranked

end AgentVeil.Rust
