import AgentVeil.Payload.Theorems

/-!
# Reading back what was written

A canonical value is read back from its own document.
-/

namespace AgentVeil

open Rust Rust.Value

theorem visitSeq_documentItems {l : List Value}
    (ih : ∀ v ∈ l, uniqueValue v.document = some v) : visitSeq (documentItems l) = some l := by
  induction l with
  | nil => rfl
  | cons v l ihl =>
      obtain ⟨hv, hl⟩ := List.forall_mem_cons.mp ih
      simp only [documentItems, visitSeq, hv, ihl hl, Option.bind_eq_bind, Option.bind_some]

theorem visitMap_documentFields {l o : Object} {ks : List Str}
    (ih : ∀ f ∈ l, uniqueValue f.2.document = some f.2)
    (hks : ∀ k ∈ ks, k ∈ o.map Prod.fst)
    (sorted : ((o ++ l).map Prod.fst).Pairwise (· < ·)) :
    visitMap ks o (documentFields l) = some (o ++ l) := by
  induction l generalizing o ks with
  | nil => simp [documentFields, visitMap]
  | cons f l ihl =>
      obtain ⟨k, v⟩ := f
      obtain ⟨hv, hl⟩ := List.forall_mem_cons.mp ih
      have hlt : ∀ g ∈ o, g.1 < k := fun g hg => by
        rw [List.map_append] at sorted
        exact (List.pairwise_append.mp sorted).2.2 g.1 (List.mem_map_of_mem hg) k (by simp)
      have hfresh : k ∉ ks := fun hk => by
        obtain ⟨g, hg, rfl⟩ := List.mem_map.mp (hks k hk)
        exact absurd (hlt g hg) (lt_irrefl _)
      simp only [documentFields, visitMap, if_neg hfresh, hv, Option.bind_eq_bind, Option.bind_some,
        orderedInsert_last (f := (k, v)) hlt]
      rw [ihl hl, List.append_assoc, List.singleton_append]
      · intro j hj
        rcases List.mem_cons.mp hj with rfl | hj
        · simp
        · rw [List.map_append]
          exact List.mem_append_left _ (hks j hj)
      · rwa [List.append_assoc, List.singleton_append]

theorem uniqueValue_document {v : Value} (hv : v.Canonical) : uniqueValue v.document = some v := by
  induction hv with
  | null => rfl
  | bool b => rfl
  | string s => rfl
  | @number n hn =>
      cases n with
      | posInt n => rfl
      | negInt n => simp only [document, Number.document, uniqueValue, if_pos (show n < 0 from hn)]
      | float bits =>
          simp only [document, Number.document, uniqueValue]
          rw [if_pos (show isFiniteF64 bits = true from hn)]
  | array _ ih => simp only [document, uniqueValue, visitSeq_documentItems ih, Option.map_some]
  | object sorted _ ih =>
      simp only [document, uniqueValue]
      rw [visitMap_documentFields ih (by simp) (by simpa using sorted)]
      rfl

/-- What is written for a value reads back as the value, up to its floats. -/
theorem uniqueValue_written {serde : SerdeJson} {v : Value} (hv : v.Canonical) {b : List UInt8}
    (written : serde.toVec v = some b) :
    (serde.fromSlice b).bind uniqueValue = some (serde.reparse v) := by
  rw [serde.roundTrip v b hv written, Option.bind_some]
  exact uniqueValue_document (SerdeJson.canonical_reparse hv)

end AgentVeil
