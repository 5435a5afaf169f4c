import AgentVeil.Rust.Collections

/-!
# Breadth-first search

A queue of nodes and their depths, from a root. A node is expanded at its first visit, which happens at
its least depth, so that leaving out later visits loses no descendants.
-/

namespace AgentVeil.Rust

variable {ε α : Type}

/-- A path of `n` edges from the root. -/
inductive SearchPath (next : α → Fallible ε (List α)) (root : α) : Nat → α → Prop where
  | root : SearchPath next root 0 root
  | edge {n : Nat} {v w : α} {l : List α} : SearchPath next root n v → next v = .ok l → w ∈ l →
      SearchPath next root (n + 1) w

/-- The nodes of a tree of this height in which every inner node has `b` children. -/
def treeSize (b : Nat) : Nat → Nat
  | 0 => 1
  | h + 1 => 1 + b * treeSize b h

theorem treeSize_pos (b h : Nat) : 0 < treeSize b h := by
  cases h with
  | zero => exact Nat.one_pos
  | succ h => rw [treeSize]; omega

/-- The visits that a queue may still bring. -/
def visitsLeft (b layers : Nat) (queue : List (α × Nat)) : Nat :=
  (queue.map fun q => treeSize b (layers - q.2)).sum

theorem visitsLeft_cons (b layers : Nat) (v : α) (k : Nat) (queue : List (α × Nat)) :
    visitsLeft b layers ((v, k) :: queue) = treeSize b (layers - k) + visitsLeft b layers queue := by
  simp [visitsLeft]

/-- Expanding a node pays for its children. -/
theorem visitsLeft_expand {b layers k : Nat} {l : List α} (hl : l.length ≤ b) (hk : k < layers)
    (queue : List (α × Nat)) :
    visitsLeft b layers (queue ++ l.map (·, k + 1)) + 1
      ≤ treeSize b (layers - k) + visitsLeft b layers queue := by
  have hsum : ∀ l : List α, visitsLeft b layers (l.map (·, k + 1))
      = l.length * treeSize b (layers - (k + 1)) := by
    intro l
    simp [visitsLeft, Function.comp_def]
  have happend : visitsLeft b layers (queue ++ l.map (·, k + 1))
      = visitsLeft b layers queue + visitsLeft b layers (l.map (·, k + 1)) := by
    simp [visitsLeft]
  have hle : l.length * treeSize b (layers - (k + 1)) ≤ b * treeSize b (layers - (k + 1)) :=
    Nat.mul_le_mul_right _ hl
  rw [happend, hsum, show layers - k = layers - (k + 1) + 1 by omega, treeSize]
  omega

section Search

variable (check : α → Fallible ε Unit) (next : α → Fallible ε (List α)) (layers : Nat)

/-- The loop over a queue of nodes and their depths; `fuel` bounds the nodes taken from it. -/
def searchFrom [DecidableEq α] : Nat → List (α × Nat) → List (α × Nat) → Fallible ε (List α)
  | _, [], visited => .ok (visited.map Prod.fst)
  | 0, _ :: _, _ => .error .panic
  | fuel + 1, (v, k) :: queue, visited =>
      if v ∈ visited.map Prod.fst then searchFrom fuel queue visited
      else do
        check v
        let l ← if k < layers then next v else .ok []
        searchFrom fuel (queue ++ l.map (·, k + 1)) (visited ++ [(v, k)])

/-- The state of a search: the depths of the visited nodes and of the queue do not decrease, and the
children of every expanded node are there, at most one layer deeper. -/
structure Frontier (root : α) (queue visited : List (α × Nat)) : Prop where
  rooted : (root, 0) ∈ visited ++ queue
  path : ∀ q ∈ visited ++ queue, q.2 ≤ layers ∧ SearchPath next root q.2 q.1
  sorted : (visited ++ queue).Pairwise fun q q' => q.2 ≤ q'.2
  near : ∀ q ∈ queue, ∀ q' ∈ queue, q'.2 ≤ q.2 + 1
  distinct : (visited.map Prod.fst).Nodup
  checked : ∀ q ∈ visited, check q.1 = .ok ()
  expanded : ∀ q ∈ visited, q.2 < layers → ∃ l, next q.1 = .ok l ∧
    ∀ c ∈ l, ∃ k ≤ q.2 + 1, (c, k) ∈ visited ++ queue

variable {check next layers} {root v : α} {k : Nat} {queue visited : List (α × Nat)} {l : List α}

theorem Frontier.start (root : α) : Frontier check next layers root [(root, 0)] [] where
  rooted := List.mem_singleton.mpr rfl
  path := by
    intro q hq
    obtain rfl := List.mem_singleton.mp hq
    exact ⟨Nat.zero_le _, .root⟩
  sorted := List.pairwise_singleton _ _
  near := by simp
  distinct := List.nodup_nil
  checked := by simp
  expanded := by simp

theorem Frontier.skip (h : Frontier check next layers root ((v, k) :: queue) visited)
    (hv : v ∈ visited.map Prod.fst) : Frontier check next layers root queue visited := by
  obtain ⟨⟨v, k'⟩, hk', rfl⟩ := List.mem_map.mp hv
  -- the earlier visit was at no larger depth
  have hle : k' ≤ k := (List.pairwise_append.mp h.sorted).2.2 _ hk' _ List.mem_cons_self
  have hmem : ∀ q ∈ visited ++ (v, k) :: queue, ∃ k'' ≤ q.2, (q.1, k'') ∈ visited ++ queue := by
    intro q hq
    rcases List.mem_append.mp hq with hq | hq
    · exact ⟨q.2, Nat.le_refl _, List.mem_append_left _ hq⟩
    rcases List.mem_cons.mp hq with rfl | hq
    · exact ⟨k', hle, List.mem_append_left _ hk'⟩
    · exact ⟨q.2, Nat.le_refl _, List.mem_append_right _ hq⟩
  have hsub : (visited ++ queue).Sublist (visited ++ (v, k) :: queue) :=
    (List.Sublist.refl _).append (List.sublist_cons_self _ _)
  constructor
  · obtain ⟨k'', hk'', hroot⟩ := hmem _ h.rooted
    simp only [Nat.le_zero] at hk''
    exact hk'' ▸ hroot
  · exact fun q hq => h.path q (hsub.subset hq)
  · exact h.sorted.sublist hsub
  · exact fun q hq q' hq' => h.near q (List.mem_cons_of_mem _ hq) q' (List.mem_cons_of_mem _ hq')
  · exact h.distinct
  · exact h.checked
  · intro q hq hlt
    obtain ⟨l, hl, hc⟩ := h.expanded q hq hlt
    refine ⟨l, hl, fun c hcl => ?_⟩
    obtain ⟨j, hj, hin⟩ := hc c hcl
    obtain ⟨j', hj', hin'⟩ := hmem _ hin
    exact ⟨j', Nat.le_trans hj' hj, hin'⟩

theorem Frontier.visit (h : Frontier check next layers root ((v, k) :: queue) visited)
    (hv : v ∉ visited.map Prod.fst) (hcheck : check v = .ok ())
    (hnext : k < layers → next v = .ok l) (hleaf : layers ≤ k → l = []) :
    Frontier check next layers root (queue ++ l.map (·, k + 1)) (visited ++ [(v, k)]) := by
  have hall : visited ++ [(v, k)] ++ (queue ++ l.map (·, k + 1))
      = visited ++ (v, k) :: queue ++ l.map (·, k + 1) := by simp
  have hold : ∀ q ∈ visited ++ (v, k) :: queue,
      q ∈ visited ++ [(v, k)] ++ (queue ++ l.map (·, k + 1)) := fun q hq => by
    rw [hall]
    exact List.mem_append_left _ hq
  have hnew : ∀ q ∈ l.map (·, k + 1), k < layers ∧ q.2 = k + 1 ∧ q.1 ∈ l := by
    intro q hq
    obtain ⟨c, hc, rfl⟩ := List.mem_map.mp hq
    refine ⟨?_, rfl, hc⟩
    by_contra hk
    rw [hleaf (Nat.not_lt.mp hk)] at hc
    cases hc
  have hsorted := List.pairwise_append.mp h.sorted
  have hge : ∀ q ∈ queue, k ≤ q.2 := (List.pairwise_cons.mp hsorted.2.1).1
  have hle : ∀ q ∈ queue, q.2 ≤ k + 1 := fun q hq =>
    h.near (v, k) List.mem_cons_self q (List.mem_cons_of_mem _ hq)
  constructor
  · exact hold _ h.rooted
  · intro q hq
    rw [hall] at hq
    rcases List.mem_append.mp hq with hq | hq
    · exact h.path q hq
    · obtain ⟨hk, hdepth, hc⟩ := hnew q hq
      have hpath := (h.path (v, k) (by simp)).2
      rw [hdepth]
      exact ⟨hk, .edge hpath (hnext hk) hc⟩
  · rw [hall]
    refine List.pairwise_append.mpr ⟨h.sorted, ?_, fun q hq q' hq' => ?_⟩
    · exact List.pairwise_of_forall_mem_list fun q hq q' hq' => by
        rw [(hnew q hq).2.1, (hnew q' hq').2.1]
    · rw [(hnew q' hq').2.1]
      rcases List.mem_append.mp hq with hq | hq
      · exact Nat.le_succ_of_le (hsorted.2.2 q hq (v, k) List.mem_cons_self)
      rcases List.mem_cons.mp hq with rfl | hq
      · exact Nat.le_succ k
      · exact hle q hq
  · have hlow : ∀ q ∈ queue ++ l.map (·, k + 1), k ≤ q.2 ∧ q.2 ≤ k + 1 := by
      intro q hq
      rcases List.mem_append.mp hq with hq | hq
      · exact ⟨hge q hq, hle q hq⟩
      · rw [(hnew q hq).2.1]
        exact ⟨Nat.le_succ k, Nat.le_refl _⟩
    exact fun q hq q' hq' =>
      Nat.le_trans (hlow q' hq').2 (Nat.add_le_add_right (hlow q hq).1 1)
  · rw [List.map_append]
    exact List.nodup_append.mpr ⟨h.distinct, List.nodup_singleton v, fun a ha b hb hab => by
      obtain rfl := List.mem_singleton.mp hb
      exact hv (hab ▸ ha)⟩
  · intro q hq
    rcases List.mem_append.mp hq with hq | hq
    · exact h.checked q hq
    · rw [List.mem_singleton.mp hq]
      exact hcheck
  · intro q hq hlt
    rcases List.mem_append.mp hq with hq | hq
    · obtain ⟨l', hl', hc⟩ := h.expanded q hq hlt
      refine ⟨l', hl', fun c hcl => ?_⟩
      obtain ⟨j, hj, hin⟩ := hc c hcl
      exact ⟨j, hj, hold _ hin⟩
    · obtain rfl := List.mem_singleton.mp hq
      refine ⟨l, hnext hlt, fun c hcl => ⟨k + 1, Nat.le_refl _, ?_⟩⟩
      rw [hall]
      exact List.mem_append_right _ (List.mem_map_of_mem hcl)

/-- A node on a path of at most `layers` edges was visited by then. -/
theorem Frontier.complete (h : Frontier check next layers root [] visited) {n : Nat}
    (hp : SearchPath next root n v) (hn : n ≤ layers) : ∃ k ≤ n, (v, k) ∈ visited := by
  induction hp with
  | root => exact ⟨0, Nat.le_refl _, by simpa using h.rooted⟩
  | edge hp hl hw ih =>
      obtain ⟨k, hk, hv⟩ := ih (Nat.le_of_succ_le hn)
      obtain ⟨l', hl', hc⟩ := h.expanded _ hv (Nat.lt_of_le_of_lt hk hn)
      rw [hl] at hl'
      cases hl'
      obtain ⟨j, hj, hin⟩ := hc _ hw
      exact ⟨j, Nat.le_trans hj (Nat.add_le_add_right hk 1), by simpa using hin⟩

/-- The loop visits everything, or stops at a node that fails. -/
theorem searchFrom_cases [DecidableEq α] {b : Nat} (hb : ∀ v l, next v = .ok l → l.length ≤ b) {fuel : Nat}
    (hfuel : visitsLeft b layers queue ≤ fuel)
    (h : Frontier check next layers root queue visited) :
    (∃ out, searchFrom check next layers fuel queue visited = .ok (out.map Prod.fst) ∧
      Frontier check next layers root [] out ∧
      out.length ≤ visited.length + visitsLeft b layers queue) ∨
    ∃ e n w, searchFrom check next layers fuel queue visited = .error e ∧ n ≤ layers ∧
      SearchPath next root n w ∧ (check w = .error e ∨ n < layers ∧ next w = .error e) := by
  induction fuel generalizing queue visited with
  | zero =>
      cases queue with
      | nil => exact .inl ⟨visited, rfl, h, Nat.le_add_right _ _⟩
      | cons q queue =>
          obtain ⟨v, k⟩ := q
          have := treeSize_pos b (layers - k)
          rw [visitsLeft_cons] at hfuel
          omega
  | succ fuel ih =>
      cases queue with
      | nil => exact .inl ⟨visited, rfl, h, Nat.le_add_right _ _⟩
      | cons q queue =>
          obtain ⟨v, k⟩ := q
          have hpos := treeSize_pos b (layers - k)
          rw [visitsLeft_cons] at hfuel ⊢
          obtain ⟨hk, hpath⟩ := h.path (v, k) (by simp)
          simp only [searchFrom]
          split
          · rename_i hv
            rcases ih (by omega) (h.skip hv) with ⟨out, hout, hf, hlen⟩ | herr
            · exact .inl ⟨out, hout, hf, by omega⟩
            · exact .inr herr
          · rename_i hv
            cases hcheck : check v with
            | error e => exact .inr ⟨e, k, v, rfl, hk, hpath, .inl hcheck⟩
            | ok _ =>
                by_cases hlt : k < layers
                · cases hnext : next v with
                  | error e =>
                      refine .inr ⟨e, k, v, ?_, hk, hpath, .inr ⟨hlt, hnext⟩⟩
                      simp only [hlt, ↓reduceIte, ok_bind, error_bind]
                  | ok l =>
                      have hleft := visitsLeft_expand (hb v l hnext) hlt queue
                      simp only [hlt, ↓reduceIte, ok_bind]
                      rcases ih (by omega) (h.visit hv hcheck (fun _ => hnext)
                        fun hge => absurd hlt (Nat.not_lt.mpr hge)) with ⟨out, hout, hf, hlen⟩ | herr
                      · refine .inl ⟨out, hout, hf, ?_⟩
                        rw [List.length_append, List.length_singleton] at hlen
                        omega
                      · exact .inr herr
                · simp only [hlt, ↓reduceIte, ok_bind]
                  have hvisit := h.visit hv hcheck (fun hk => absurd hk hlt)
                    (fun _ => rfl : layers ≤ k → ([] : List α) = [])
                  simp only [List.map_nil, List.append_nil] at hvisit ⊢
                  rcases ih (by omega) hvisit with ⟨out, hout, hf, hlen⟩ | herr
                  · refine .inl ⟨out, hout, hf, ?_⟩
                    rw [List.length_append, List.length_singleton] at hlen
                    omega
                  · exact .inr herr

variable (check next layers) in
/-- The search from a root, for nodes with at most `b` children. -/
def search [DecidableEq α] (b : Nat) (root : α) : Fallible ε (List α) :=
  searchFrom check next layers (treeSize b layers) [(root, 0)] []

/-- A search that succeeds gives every node of a path of at most `layers` edges once. -/
theorem search_ok [DecidableEq α] {b : Nat} (hb : ∀ v l, next v = .ok l → l.length ≤ b)
    (h : search check next layers b root = .ok l) :
    l.Nodup ∧ l.length ≤ treeSize b layers ∧
      (∀ v, v ∈ l ↔ ∃ n ≤ layers, SearchPath next root n v) ∧
      (∀ n v, n ≤ layers → SearchPath next root n v → check v = .ok ()) ∧
      ∀ n v, n < layers → SearchPath next root n v → ∃ l, next v = .ok l := by
  have hleft : visitsLeft b layers [(root, 0)] = treeSize b layers := by simp [visitsLeft]
  rcases searchFrom_cases hb (Nat.le_of_eq hleft) (Frontier.start root) with
    ⟨out, hout, hf, hlen⟩ | ⟨e, _, _, herr, _⟩
  · rw [search, hout] at h
    cases h
    refine ⟨hf.distinct, ?_, fun v => ⟨fun hv => ?_, fun ⟨n, hn, hp⟩ => ?_⟩, fun n v hn hp => ?_,
      fun n v hn hp => ?_⟩
    · rw [List.length_map]
      simpa [hleft] using hlen
    · obtain ⟨⟨_, k⟩, hk, rfl⟩ := List.mem_map.mp hv
      exact ⟨k, hf.path (_, k) (by simpa using hk)⟩
    · obtain ⟨k, _, hv⟩ := hf.complete hp hn
      exact List.mem_map_of_mem hv
    · obtain ⟨k, _, hv⟩ := hf.complete hp hn
      exact hf.checked _ hv
    · obtain ⟨k, hk, hv⟩ := hf.complete hp (Nat.le_of_lt hn)
      obtain ⟨l, hl, _⟩ := hf.expanded _ hv (Nat.lt_of_le_of_lt hk hn)
      exact ⟨l, hl⟩
  · rw [search, herr] at h
    cases h

/-- A search that fails has reached a node that fails. -/
theorem search_error [DecidableEq α] {b : Nat} (hb : ∀ v l, next v = .ok l → l.length ≤ b) {e : Failure ε}
    (h : search check next layers b root = .error e) :
    ∃ n v, n ≤ layers ∧ SearchPath next root n v ∧
      (check v = .error e ∨ n < layers ∧ next v = .error e) := by
  have hleft : visitsLeft b layers [(root, 0)] = treeSize b layers := by simp [visitsLeft]
  rcases searchFrom_cases hb (Nat.le_of_eq hleft) (Frontier.start root) with
    ⟨out, hout, _⟩ | ⟨e', n, v, herr, hn, hp, hfail⟩
  · rw [search, hout] at h
    cases h
  · rw [search, herr] at h
    cases h
    exact ⟨n, v, hn, hp, hfail⟩

end Search

end AgentVeil.Rust
