import AgentVeil.Payload.Theorems

/-!
# Rewriting targets

The paths of the targets are collected once and used while the tree changes. Each leads to a string
of its own, and writing a string moves no path, so `text` and `replace_text` are a lens for each
target.
-/

namespace AgentVeil

open Rust
open Rust.Value (mapStrings mapStringsItems mapStringsFields keysItems keysFields)

/-- What is left of a tree without the content of its strings: its keys, its other values and where
everything stands. -/
def Rust.Value.frame (v : Value) : Value := mapStrings (fun _ _ => []) v

theorem Rust.Value.frame_mapStrings (f : Path → Str → Str) (v : Value) :
    (mapStrings f v).frame = v.frame := mapStrings_mapStrings _ _ _

theorem Rust.Value.keys_mapStrings (f : Path → Str → Str) (v : Value) :
    (mapStrings f v).keys = v.keys := by
  induction v using Value.induction generalizing f with
  | array l ih =>
      have hitems : ∀ i, keysItems (mapStringsItems f i l) = keysItems l := by
        induction l with
        | nil => exact fun _ => rfl
        | cons v l ihl =>
            intro i
            rw [mapStringsItems, keysItems, keysItems, ih v List.mem_cons_self,
              ihl fun w hw => ih w (List.mem_cons_of_mem _ hw)]
      exact hitems 0
  | object o ih =>
      have hfields : keysFields (mapStringsFields f o) = keysFields o := by
        induction o with
        | nil => rfl
        | cons e o iho =>
            rw [mapStringsFields, keysFields, keysFields, ih e List.mem_cons_self,
              iho fun w hw => ih w (List.mem_cons_of_mem _ hw)]
      exact hfields
  | _ => rfl

namespace ValidatedRequest

/-- The request with the string at a path written over. -/
def write (request : ValidatedRequest) (p : Path) (r : Str) : ValidatedRequest :=
  { request with value := mapStrings (fun q s => if q = p then r else s) request.value }

/-- `replace_text` on a request that is changed in place: an error leaves it as it was. -/
def replaced (request : ValidatedRequest) (call : Nat × Str) : ValidatedRequest :=
  match request.replaceText call.1 call.2 with
  | .ok next => next
  | .error _ => request

/-- The calls one after another. -/
def replaceAll (request : ValidatedRequest) (calls : List (Nat × Str)) : ValidatedRequest :=
  calls.foldl replaced request

/-- `text` and `replace_text` are a lens for each target. -/
structure Lens (request : ValidatedRequest) : Prop where
  resolves : ∀ t ∈ request.targets, ∃ s, request.text t = .ok s
  succeeds : ∀ {i t} r, request.targets[i]? = some t → t.literal = none →
    ∃ next, request.replaceText i r = .ok next
  written : ∀ {i r next}, request.replaceText i r = .ok next →
    ∃ t, request.targets[i]? = some t ∧ next.text t = .ok r
  others : ∀ {i j r next t}, request.replaceText i r = .ok next → j ≠ i →
    request.targets[j]? = some t → next.text t = request.text t
  kept : ∀ {i r next}, request.replaceText i r = .ok next → next.targets = request.targets ∧
    next.value.keys = request.value.keys ∧ next.value.frame = request.value.frame
  range : ∀ {i} r, request.targets.length ≤ i →
    request.replaceText i r = .error .targetMissing ∧ request.replaced (i, r) = request
  literal : ∀ {i t} r, request.targets[i]? = some t → t.literal.isSome = true →
    request.replaceText i r = .error .targetIsStructuralLiteral ∧ request.replaced (i, r) = request
  commute : ∀ {i j} r s, i ≠ j → request.replaceAll [(i, r), (j, s)] = request.replaceAll [(j, s), (i, r)]

/-- Every target that is no literal has a path of its own, which leads to a string. -/
structure Addressed (request : ValidatedRequest) : Prop where
  canonical : request.value.Canonical
  apart : request.targets.Pairwise fun t t' => t.literal = none → t'.literal = none → t.path ≠ t'.path
  strings : ∀ t ∈ request.targets, t.literal = none →
    ∃ s, request.value.get? t.path = some (.string s)

theorem Tracks.addressed {request : ValidatedRequest} (h : request.Tracks) : request.Addressed := by
  constructor
  · exact h.canonical
  · have hnodup : (request.leafTargets.map (·.path)).Nodup :=
      h.paths.nodup_iff.mpr h.canonical.nodup_leaves
    rw [List.Nodup, List.pairwise_map, leafTargets, List.pairwise_filter] at hnodup
    exact hnodup.imp fun hne hl hl' => hne (by simp [hl]) (by simp [hl'])
  · intro t ht hl
    obtain ⟨s, hs, _⟩ := h.text_leaf (t := t) (List.mem_filter.mpr ⟨ht, by simp [hl]⟩)
    exact ⟨s, h.canonical.mem_leaves.mp hs⟩

namespace Addressed

variable {request : ValidatedRequest}

theorem path_ne (h : request.Addressed) {i j : Nat} {t t' : TextTarget}
    (hi : request.targets[i]? = some t) (hj : request.targets[j]? = some t') (hne : i ≠ j)
    (hl : t.literal = none) (hl' : t'.literal = none) : t.path ≠ t'.path := by
  obtain ⟨hlt, rfl⟩ := List.getElem?_eq_some_iff.mp hi
  obtain ⟨hlt', rfl⟩ := List.getElem?_eq_some_iff.mp hj
  have hapart := List.pairwise_iff_getElem.mp h.apart
  rcases Nat.lt_or_gt_of_ne hne with h | h
  · exact hapart i j hlt hlt' h hl hl'
  · exact (hapart j i hlt' hlt h hl' hl).symm

theorem text_eq (h : request.Addressed) {t : TextTarget} (ht : t ∈ request.targets)
    (hl : t.literal = none) : ∃ s, request.value.get? t.path = some (.string s) ∧
      request.text t = .ok s := by
  obtain ⟨s, hs⟩ := h.strings t ht hl
  refine ⟨s, hs, ?_⟩
  rw [text, hl]
  simp only [locate, hs, okOr, bind, Except.bind, Value.asStr]

/-- What `replace_text` does. -/
theorem replaceText_eq (h : request.Addressed) (i : Nat) (r : Str) :
    request.replaceText i r = match request.targets[i]? with
      | none => .error .targetMissing
      | some t =>
          if t.literal = none then .ok (request.write t.path r)
          else .error .targetIsStructuralLiteral := by
  cases ht : request.targets[i]? with
  | none => simp only [replaceText, ht, okOr, bind, Except.bind]
  | some t =>
      by_cases hl : t.literal = none
      · obtain ⟨s, hs⟩ := h.strings t (List.mem_of_getElem? ht) hl
        have hset := h.canonical.set?_string (r := r) hs
        simp only [if_pos hl]
        simp only [replaceText, ht, okOr, hl, ensure, if_true, locate, hs, Value.isString, Value.asStr,
          Option.isSome_some, hset, bind, Except.bind, write]
      · simp only [if_neg hl]
        simp only [replaceText, ht, okOr, ensure, if_neg hl, bind, Except.bind]

theorem text_write (h : request.Addressed) {t t' : TextTarget} (ht' : t' ∈ request.targets)
    (hl' : t'.literal = none) (r : Str) :
    (request.write t.path r).text t' = if t'.path = t.path then .ok r else request.text t' := by
  obtain ⟨s, hs, htext⟩ := h.text_eq ht' hl'
  rw [htext, text, hl']
  have hget : (request.write t.path r).value.get? t'.path
      = some (.string (if t'.path = t.path then r else s)) := by
    rw [write, Value.get?_mapStrings, hs, Option.map_some]
    simp only [mapStrings, List.append_nil]
  simp only [locate, hget, okOr, bind, Except.bind, Value.asStr]
  split
  · rfl
  · rfl

theorem text_literal {t : TextTarget} (hl : t.literal.isSome = true) (other : ValidatedRequest) :
    other.text t = request.text t := by
  obtain ⟨k, hk⟩ := Option.isSome_iff_exists.mp hl
  rw [text, text, hk]

/-- Writing keeps the invariant. -/
theorem write (h : request.Addressed) (p : Path) (r : Str) : (request.write p r).Addressed := by
  constructor
  · exact h.canonical.mapStrings
  · exact h.apart
  · intro t ht hl
    obtain ⟨s, hs⟩ := h.strings t ht hl
    refine ⟨if t.path = p then r else s, ?_⟩
    rw [ValidatedRequest.write, Value.get?_mapStrings, hs, Option.map_some]
    simp only [mapStrings, List.append_nil]

theorem replaceText_ok (h : request.Addressed) {i : Nat} {r : Str} {next : ValidatedRequest}
    (hok : request.replaceText i r = .ok next) :
    ∃ t, request.targets[i]? = some t ∧ t.literal = none ∧ next = request.write t.path r := by
  rw [h.replaceText_eq] at hok
  split at hok
  · cases hok
  · split at hok
    · cases hok
      exact ⟨_, ‹_›, ‹_›, rfl⟩
    · cases hok

theorem replaced_eq (h : request.Addressed) (i : Nat) (r : Str) :
    request.replaced (i, r) = match request.targets[i]? with
      | none => request
      | some t => if t.literal = none then request.write t.path r else request := by
  unfold replaced
  rw [h.replaceText_eq]
  cases request.targets[i]? with
  | none => rfl
  | some t =>
      by_cases hl : t.literal = none
      · simp only [if_pos hl]
      · simp only [if_neg hl]

theorem targets_replaced (h : request.Addressed) (call : Nat × Str) :
    (request.replaced call).targets = request.targets := by
  rw [h.replaced_eq]
  cases request.targets[call.1]? with
  | none => rfl
  | some t =>
      simp only
      split
      · rfl
      · rfl

theorem replaced (h : request.Addressed) (call : Nat × Str) : (request.replaced call).Addressed := by
  rw [h.replaced_eq]
  cases request.targets[call.1]? with
  | none => exact h
  | some t =>
      simp only
      split
      · exact h.write _ _
      · exact h

theorem replaceAll (h : request.Addressed) (calls : List (Nat × Str)) :
    (request.replaceAll calls).Addressed := by
  induction calls generalizing request with
  | nil => exact h
  | cons call calls ih => exact ih (h.replaced call)

/-- Writes at different paths commute. -/
theorem write_comm {p q : Path} (hne : p ≠ q) (r s : Str) :
    (request.write p r).write q s = (request.write q s).write p r := by
  unfold ValidatedRequest.write
  simp only [Value.mapStrings_mapStrings]
  congr 1
  apply Value.mapStrings_congr
  intro leaf _
  by_cases hp : leaf.1 = p
  · rw [if_neg (hp ▸ hne), if_pos hp, if_pos hp]
  · rw [if_neg hp, if_neg hp]

theorem lens (h : request.Addressed) : request.Lens where
  resolves t ht := by
    cases hl : t.literal with
    | some k => exact ⟨k, by rw [text, hl]⟩
    | none =>
        obtain ⟨s, _, hs⟩ := h.text_eq ht hl
        exact ⟨s, hs⟩
  succeeds {i t} r ht hl := by
    rw [h.replaceText_eq, ht]
    exact ⟨_, if_pos hl⟩
  written {i r next} hok := by
    obtain ⟨t, ht, hl, rfl⟩ := h.replaceText_ok hok
    exact ⟨t, ht, by rw [h.text_write (List.mem_of_getElem? ht) hl, if_pos rfl]⟩
  others {i j r next t} hok hne ht := by
    obtain ⟨t', ht', hl', rfl⟩ := h.replaceText_ok hok
    cases hl : t.literal with
    | some k => exact text_literal (by simp [hl]) _
    | none =>
        rw [h.text_write (List.mem_of_getElem? ht) hl, if_neg (h.path_ne ht ht' hne hl hl')]
  kept {i r next} hok := by
    obtain ⟨t, _, _, rfl⟩ := h.replaceText_ok hok
    exact ⟨rfl, Value.keys_mapStrings _ _, Value.frame_mapStrings _ _⟩
  range {i} r hi := by
    have hnone := List.getElem?_eq_none hi
    rw [h.replaceText_eq, h.replaced_eq, hnone]
    exact ⟨rfl, rfl⟩
  literal {i t} r ht hl := by
    have hne : t.literal ≠ none := Option.isSome_iff_ne_none.mp hl
    rw [h.replaceText_eq, h.replaced_eq, ht]
    exact ⟨if_neg hne, if_neg hne⟩
  commute {i j} r s hne := by
    simp only [ValidatedRequest.replaceAll, List.foldl_cons, List.foldl_nil]
    rw [(h.replaced (i, r)).replaced_eq, (h.replaced (j, s)).replaced_eq, h.targets_replaced,
      h.targets_replaced, h.replaced_eq, h.replaced_eq]
    cases hi : request.targets[i]? with
    | none => rfl
    | some t =>
        cases hj : request.targets[j]? with
        | none => rfl
        | some t' =>
            by_cases hl : t.literal = none
            · by_cases hl' : t'.literal = none
              · simp only [if_pos hl, if_pos hl']
                exact write_comm (h.path_ne hi hj hne hl hl') r s
              · simp only [if_neg hl']
            · simp only [if_neg hl]

end Addressed

end ValidatedRequest

/-- After any calls of `replace_text` on an accepted request, `text` and `replace_text` are a lens for
each of its targets. -/
theorem replaceText_lens {serde : SerdeJson} {bytes : List UInt8} {request : ValidatedRequest}
    (h : ValidatedRequest.parse serde bytes = .ok request) (calls : List (Nat × Str)) :
    (request.replaceAll calls).Lens :=
  ((parse_tracks h).1.addressed.replaceAll calls).lens

theorem replaceText_lens_demo : ∃ request,
    ValidatedRequest.parse demoSerde (demoBody "hello".toList) = .ok request ∧
      (request.replaceAll [(0, "bye".toList)]).Lens := by
  have hok : (ValidatedRequest.parse demoSerde (demoBody "hello".toList)).toOption.isSome = true := by
    decide
  cases h : ValidatedRequest.parse demoSerde (demoBody "hello".toList) with
  | error e => rw [h] at hok; cases hok
  | ok request => exact ⟨request, rfl, replaceText_lens h _⟩

end AgentVeil
