import AgentVeil.Sse

/-!
# The leaves that are restored

`displayLeaves` lists the strings of an event that are shown to the user, in the order of the text.
Restoring an event calls the closure once for each and writes what it returns there.
-/

namespace AgentVeil

open Rust
open Rust.Value (asStr asArray mapStrings field)

/-! ## Display leaves -/

/-- The strings under a segment. -/
def below (seg : PathSegment) (leaves : List (Path × Str)) : List (Path × Str) :=
  leaves.map fun l => (seg :: l.1, l.2)

/-- The string at a field. -/
def textLeaf (name : String) (v : Value) : List (Path × Str) :=
  match v.child? (.key name.toList) with
  | some (.string s) => [([.key name.toList], s)]
  | _ => []

def leavesAt (f : Value → List (Path × Str)) (name : String) (v : Value) : List (Path × Str) :=
  match v.child? (.key name.toList) with
  | some c => below (.key name.toList) (f c)
  | none => []

def itemLeaves (f : Value → List (Path × Str)) : Nat → List Value → List (Path × Str)
  | _, [] => []
  | i, v :: l => below (.index i) (f v) ++ itemLeaves f (i + 1) l

def arrayLeaves (f : Value → List (Path × Str)) : Value → List (Path × Str)
  | .array l => itemLeaves f 0 l
  | _ => []

/-- `.text` of a part of type `output_text`. -/
def outputTextLeaves (part : Value) : List (Path × Str) :=
  if getType part = some "output_text".toList then textLeaf "text" part else []

/-- `.content[*].text` of a message. -/
def messageLeaves (item : Value) : List (Path × Str) :=
  if getType item = some "message".toList then leavesAt (arrayLeaves outputTextLeaves) "content" item
  else []

/-- The strings that an event of the type shows, with their paths. -/
def displayLeaves (eventType : Str) (event : Value) : List (Path × Str) :=
  if eventType = deltaEvent then textLeaf "delta" event
  else if eventType = doneEvent then textLeaf "text" event
  else if eventType ∈ contentPartEvents then leavesAt outputTextLeaves "part" event
  else if eventType ∈ outputItemEvents then leavesAt messageLeaves "item" event
  else if eventType ∈ responseEvents then
    leavesAt (leavesAt (arrayLeaves messageLeaves) "output") "response" event
  else []

/-! ## Replacing leaves -/

/-- The value with other strings at the given paths. -/
def replaceLeaves (updates : List (Path × Str)) (v : Value) : Value :=
  mapStrings (fun p s => (updates.lookup p).getD s) v

theorem lookup_below (seg : PathSegment) (updates : List (Path × Str)) (p : Path) :
    (below seg updates).lookup (seg :: p) = updates.lookup p := by
  induction updates with
  | nil => rfl
  | cons u updates ih =>
      obtain ⟨q, r⟩ := u
      simp only [below, List.map_cons, List.lookup_cons] at ih ⊢
      have hbeq : (seg :: p == seg :: q) = (p == q) := by
        rw [Bool.eq_iff_iff]
        simp
      rw [hbeq]
      cases p == q with
      | true => rfl
      | false => exact ih

theorem lookup_below_ne {seg seg' : PathSegment} (h : seg' ≠ seg) (updates : List (Path × Str))
    (p : Path) : (below seg updates).lookup (seg' :: p) = none := by
  induction updates with
  | nil => rfl
  | cons u updates ih =>
      simp only [below, List.map_cons, List.lookup_cons] at ih ⊢
      have hbeq : (seg' :: p == seg :: u.1) = false := by
        simp [h]
      rw [hbeq]
      exact ih

theorem replaceLeaves_nil (v : Value) : replaceLeaves [] v = v := Value.mapStrings_self v

/-- Updates below one field change that field only. -/
theorem replaceLeaves_below {v c : Value} (hv : v.Canonical) {k : Str}
    (hc : v.child? (.key k) = some c) (updates : List (Path × Str)) :
    replaceLeaves (below (.key k) updates) v = v.putChild (.key k) (replaceLeaves updates c) := by
  cases v with
  | object o =>
      have hfield : field o k = some c := hc
      simp only [replaceLeaves, mapStrings, Value.mapStringsFields_eq, Value.putChild,
        Value.object.injEq]
      refine List.map_congr_left fun f hf => ?_
      by_cases hk : f.1 = k
      · have hfc : f.2 = c := by
          have := (Value.field_eq_some_iff hv.nodup_keys).mpr (show (f.1, f.2) ∈ o from hf)
          rw [hk, hfield] at this
          exact (Option.some.inj this).symm
        simp only [hk, hfc, lookup_below, ↓reduceIte]
      · have hne : PathSegment.key f.1 ≠ PathSegment.key k := fun h => hk (PathSegment.key.inj h)
        simp only [lookup_below_ne hne, Option.getD_none, Value.mapStrings_self, hk, ↓reduceIte]
  | _ => cases hc

/-! ## Calls -/

section Calls

variable {σ : Type} {restore : Str → StateM σ Str}

/-- The closure called on one text after another. -/
def restoreTexts (restore : Str → StateM σ Str) : List Str → σ → List Str × σ
  | [], st => ([], st)
  | text :: texts, st =>
      ((restore text st).1 :: (restoreTexts restore texts (restore text st).2).1,
        (restoreTexts restore texts (restore text st).2).2)

theorem length_restoreTexts (texts : List Str) (st : σ) :
    (restoreTexts restore texts st).1.length = texts.length := by
  induction texts generalizing st with
  | nil => rfl
  | cons text texts ih => simp only [restoreTexts, List.length_cons, ih]

theorem restoreTexts_append (texts texts' : List Str) (st : σ) :
    restoreTexts restore (texts ++ texts') st =
      ((restoreTexts restore texts st).1
          ++ (restoreTexts restore texts' (restoreTexts restore texts st).2).1,
        (restoreTexts restore texts' (restoreTexts restore texts st).2).2) := by
  induction texts generalizing st with
  | nil => rfl
  | cons text texts ih => simp only [List.cons_append, restoreTexts, ih]

/-- The closure is called once for each of the leaves, and what it returns stands there. -/
def Restores (restore : Str → StateM σ Str) (leaves : List (Path × Str)) (v : Value) (st : σ)
    (v' : Value) (st' : σ) : Prop :=
  st' = (restoreTexts restore (leaves.map Prod.snd) st).2 ∧
    v' = replaceLeaves
      ((leaves.map Prod.fst).zip (restoreTexts restore (leaves.map Prod.snd) st).1) v

theorem Restores.nil (v : Value) (st : σ) : Restores restore [] v st v st :=
  ⟨rfl, (replaceLeaves_nil v).symm⟩

theorem zip_below (seg : PathSegment) (leaves : List (Path × Str)) (rs : List Str) :
    ((below seg leaves).map Prod.fst).zip rs = below seg ((leaves.map Prod.fst).zip rs) := by
  induction leaves generalizing rs with
  | nil => rfl
  | cons l leaves ih =>
      cases rs with
      | nil => rfl
      | cons r rs =>
          have := ih rs
          simp only [below, List.map_cons, List.zip_cons_cons] at this ⊢
          rw [this]

theorem map_snd_below (seg : PathSegment) (leaves : List (Path × Str)) :
    (below seg leaves).map Prod.snd = leaves.map Prod.snd := by
  simp [below]

/-- Restoring a field restores the leaves below it. -/
theorem Restores.field {v c c' : Value} {leaves : List (Path × Str)} {st st' : σ}
    (hv : v.Canonical) {k : Str} (hc : v.child? (.key k) = some c)
    (h : Restores restore leaves c st c' st') :
    Restores restore (below (.key k) leaves) v st (v.putChild (.key k) c') st' := by
  obtain ⟨hst, rfl⟩ := h
  refine ⟨by rw [map_snd_below]; exact hst, ?_⟩
  rw [map_snd_below, zip_below, replaceLeaves_below hv hc]

theorem restoreStringField_ok {name : String} {v v' : Value} (hv : v.Canonical) {st st' : σ}
    (h : restoreStringField restore name v st = (.ok v', st')) :
    Restores restore (textLeaf name v) v st v' st' := by
  unfold restoreStringField at h
  cases hc : v.child? (.key name.toList) with
  | none =>
    rw [hc] at h
    obtain ⟨rfl, rfl⟩ := Effect.pure_ok_iff.mp h
    rw [textLeaf, hc]
    exact .nil _ _
  | some current =>
    rw [hc] at h
    obtain ⟨text, _, htext, h⟩ := Effect.bind_ok_iff.mp h
    obtain ⟨hstr, rfl⟩ := Effect.okOr_ok_iff.mp htext
    obtain ⟨restored, st₁, hrestored, h⟩ := Effect.bind_ok_iff.mp h
    obtain ⟨rfl, rfl⟩ := Effect.pure_ok_iff.mp h
    cases current with
    | string s =>
        obtain rfl := Option.some.inj hstr
        have hcall : restore s st = (restored, st₁) := by
          cases hrestored
          rfl
        have hleaf : Restores restore [([], s)] (.string s) st (.string restored) st₁ := by
          refine ⟨by simp [restoreTexts, hcall], ?_⟩
          simp [restoreTexts, hcall, replaceLeaves, mapStrings]
        rw [textLeaf, hc]
        exact hleaf.field hv hc
    | _ => cases hstr

theorem restoreChild_ok {f : Value → Effect σ SseError Value} {g : Value → List (Path × Str)}
    (hf : ∀ v v' st st', v.Canonical → f v st = (.ok v', st') → Restores restore (g v) v st v' st')
    {name : String} {v v' : Value} (hv : v.Canonical) {st st' : σ}
    (h : restoreChild f name v st = (.ok v', st')) :
    Restores restore (leavesAt g name v) v st v' st' := by
  unfold restoreChild at h
  cases hc : v.child? (.key name.toList) with
  | none =>
    rw [hc] at h
    obtain ⟨rfl, rfl⟩ := Effect.pure_ok_iff.mp h
    rw [leavesAt, hc]
    exact .nil _ _
  | some child =>
    rw [hc] at h
    obtain ⟨child', st₁, hchild, h⟩ := Effect.bind_ok_iff.mp h
    obtain ⟨rfl, rfl⟩ := Effect.pure_ok_iff.mp h
    rw [leavesAt, hc]
    exact (hf _ _ _ _ (hv.of_child? hc) hchild).field hv hc

theorem itemLeaves_index {g : Value → List (Path × Str)} {n : Nat} {l : List Value}
    {leaf : Path × Str} (h : leaf ∈ itemLeaves g n l) : ∃ m p, leaf.1 = .index m :: p ∧ n ≤ m := by
  induction l generalizing n with
  | nil => cases h
  | cons v l ih =>
      rcases List.mem_append.mp h with h | h
      · obtain ⟨q, _, rfl⟩ := List.mem_map.mp h
        exact ⟨n, q.1, rfl, Nat.le_refl _⟩
      · obtain ⟨m, p, hp, hle⟩ := ih h
        exact ⟨m, p, hp, by omega⟩

theorem lookup_itemLeaves {g : Value → List (Path × Str)} {n m : Nat} {l : List Value}
    (hlt : m < n) (rs : List Str) (p : Path) :
    (((itemLeaves g n l).map Prod.fst).zip rs).lookup (.index m :: p) = none := by
  rw [List.lookup_eq_none_iff]
  intro u hu
  obtain ⟨leaf, hleaf, hpath⟩ := List.mem_map.mp (List.of_mem_zip hu).1
  obtain ⟨k, q, hk, hle⟩ := itemLeaves_index hleaf
  rw [← hpath, hk, bne_iff_ne]
  intro heq
  have := PathSegment.index.inj (List.cons.inj heq).1
  omega

/-- The loop over the items restores the leaves of each. -/
theorem restoreItems_ok {f : Value → Effect σ SseError Value} {g : Value → List (Path × Str)}
    (hf : ∀ v v' st st', v.Canonical → f v st = (.ok v', st') → Restores restore (g v) v st v' st')
    {l l' : List Value} (hl : ∀ v ∈ l, v.Canonical) {st st' : σ}
    (h : restoreItems f l st = (.ok l', st')) (n : Nat) :
    st' = (restoreTexts restore ((itemLeaves g n l).map Prod.snd) st).2 ∧
      l' = (l.zipIdx n).map fun c => mapStrings (fun p s =>
        ((((itemLeaves g n l).map Prod.fst).zip
          (restoreTexts restore ((itemLeaves g n l).map Prod.snd) st).1).lookup
            (.index c.2 :: p)).getD s) c.1 := by
  induction l generalizing l' st n with
  | nil =>
      obtain ⟨rfl, rfl⟩ := Effect.pure_ok_iff.mp h
      exact ⟨rfl, rfl⟩
  | cons v l ih =>
      obtain ⟨hv, hl⟩ := List.forall_mem_cons.mp hl
      obtain ⟨v', st₁, hv', h⟩ := Effect.bind_ok_iff.mp h
      obtain ⟨items, st₂, hitems, h⟩ := Effect.bind_ok_iff.mp h
      obtain ⟨rfl, rfl⟩ := Effect.pure_ok_iff.mp h
      obtain ⟨rfl, rfl⟩ := hf _ _ _ _ hv hv'
      obtain ⟨rfl, rfl⟩ := ih hl hitems (n + 1)
      have hsplit : ((itemLeaves g n (v :: l)).map Prod.fst).zip
          (restoreTexts restore ((itemLeaves g n (v :: l)).map Prod.snd) st).1
          = below (.index n) (((g v).map Prod.fst).zip
              (restoreTexts restore ((g v).map Prod.snd) st).1)
            ++ ((itemLeaves g (n + 1) l).map Prod.fst).zip
              (restoreTexts restore ((itemLeaves g (n + 1) l).map Prod.snd)
                (restoreTexts restore ((g v).map Prod.snd) st).2).1 := by
        rw [itemLeaves, List.map_append, List.map_append, map_snd_below, restoreTexts_append]
        rw [List.zip_append (by simp [below, length_restoreTexts]), zip_below]
      refine ⟨by rw [itemLeaves, List.map_append, map_snd_below, restoreTexts_append], ?_⟩
      rw [hsplit, List.zipIdx_cons, List.map_cons]
      congr 1
      · refine Value.mapStrings_congr _ fun q _ => ?_
        rw [List.lookup_append, lookup_below, lookup_itemLeaves (Nat.lt_succ_self n), Option.or_none]
      · refine List.map_congr_left fun c hc => Value.mapStrings_congr _ fun q _ => ?_
        have hne : PathSegment.index c.2 ≠ .index n := by
          intro heq
          have := PathSegment.index.inj heq
          have := List.le_snd_of_mem_zipIdx hc
          omega
        rw [List.lookup_append, lookup_below_ne hne, Option.none_or]

theorem restoreArrayField_ok {f : Value → Effect σ SseError Value} {g : Value → List (Path × Str)}
    (hf : ∀ v v' st st', v.Canonical → f v st = (.ok v', st') → Restores restore (g v) v st v' st')
    {name : String} {v v' : Value} (hv : v.Canonical) {st st' : σ}
    (h : restoreArrayField f name v st = (.ok v', st')) :
    Restores restore (leavesAt (arrayLeaves g) name v) v st v' st' := by
  unfold restoreArrayField at h
  cases hc : v.child? (.key name.toList) with
  | none =>
    rw [hc] at h
    obtain ⟨rfl, rfl⟩ := Effect.pure_ok_iff.mp h
    rw [leavesAt, hc]
    exact .nil _ _
  | some current =>
    rw [hc] at h
    obtain ⟨items, _, hitems, h⟩ := Effect.bind_ok_iff.mp h
    obtain ⟨harray, rfl⟩ := Effect.okOr_ok_iff.mp hitems
    obtain ⟨items', st₁, hitems', h⟩ := Effect.bind_ok_iff.mp h
    obtain ⟨rfl, rfl⟩ := Effect.pure_ok_iff.mp h
    cases current with
    | array l =>
        obtain rfl := Option.some.inj harray
        have hall : ∀ w ∈ l, w.Canonical := by
          cases hv.of_child? hc with
          | array hall => exact hall
        obtain ⟨hst, hl⟩ := restoreItems_ok hf hall hitems' 0
        have harr : Restores restore (arrayLeaves g (.array l)) (.array l) st (.array items') st₁ := by
          refine ⟨hst, ?_⟩
          rw [hl, replaceLeaves, mapStrings, Value.mapStringsItems_eq]
          rfl
        rw [leavesAt, hc]
        exact harr.field hv hc
    | _ => cases harray

theorem restoreOutputTextPart_ok (v v' : Value) (st st' : σ) (hv : v.Canonical)
    (h : restoreOutputTextPart restore v st = (.ok v', st')) :
    Restores restore (outputTextLeaves v) v st v' st' := by
  unfold restoreOutputTextPart at h
  unfold outputTextLeaves
  split at h
  · rw [if_pos ‹_›]
    exact restoreStringField_ok hv h
  · obtain ⟨rfl, rfl⟩ := Effect.pure_ok_iff.mp h
    rw [if_neg ‹_›]
    exact .nil _ _

theorem restoreMessageItem_ok (v v' : Value) (st st' : σ) (hv : v.Canonical)
    (h : restoreMessageItem restore v st = (.ok v', st')) :
    Restores restore (messageLeaves v) v st v' st' := by
  unfold restoreMessageItem at h
  unfold messageLeaves
  split at h
  · rename_i hne
    obtain ⟨rfl, rfl⟩ := Effect.pure_ok_iff.mp h
    rw [if_neg hne]
    exact .nil _ _
  · rename_i heq
    rw [if_pos (not_not.mp heq)]
    exact restoreArrayField_ok restoreOutputTextPart_ok hv h

theorem restoreEvent_ok {eventType : Str} {v v' : Value} (hv : v.Canonical) {st st' : σ}
    (h : restoreEvent restore eventType v st = (.ok v', st')) :
    Restores restore (displayLeaves eventType v) v st v' st' := by
  unfold restoreEvent at h
  unfold displayLeaves
  split at h
  · rw [if_pos ‹_›]
    exact restoreStringField_ok hv h
  rw [if_neg ‹_›]
  split at h
  · rw [if_pos ‹_›]
    exact restoreStringField_ok hv h
  rw [if_neg ‹_›]
  split at h
  · rw [if_pos ‹_›]
    exact restoreChild_ok restoreOutputTextPart_ok hv h
  rw [if_neg ‹_›]
  split at h
  · rw [if_pos ‹_›]
    exact restoreChild_ok restoreMessageItem_ok hv h
  rw [if_neg ‹_›]
  split at h
  · rw [if_pos ‹_›]
    refine restoreChild_ok (fun w w' st st' hw hrest => ?_) hv h
    exact restoreArrayField_ok restoreMessageItem_ok hw hrest
  rw [if_neg ‹_›]
  obtain ⟨rfl, rfl⟩ := Effect.pure_ok_iff.mp h
  exact .nil _ _

end Calls

/-! ## The leaves are strings of the event -/

/-- Distinct paths to strings of the value. -/
structure LeavesOf (v : Value) (leaves : List (Path × Str)) : Prop where
  strings : ∀ l ∈ leaves, v.get? l.1 = some (.string l.2)
  distinct : (leaves.map Prod.fst).Nodup

theorem LeavesOf.nil (v : Value) : LeavesOf v [] := ⟨by simp, .nil⟩

theorem LeavesOf.below {v c : Value} {seg : PathSegment} {leaves : List (Path × Str)}
    (hc : v.child? seg = some c) (h : LeavesOf c leaves) :
    LeavesOf v (AgentVeil.below seg leaves) := by
  refine ⟨fun l hl => ?_, ?_⟩
  · obtain ⟨q, hq, rfl⟩ := List.mem_map.mp hl
    simp only [Value.get?, hc, Option.bind_some]
    exact h.strings q hq
  · have hmap : (AgentVeil.below seg leaves).map Prod.fst = (leaves.map Prod.fst).map (seg :: ·) := by
      simp [AgentVeil.below, List.map_map]
    rw [hmap]
    exact h.distinct.map fun _ _ heq => (List.cons.inj heq).2

theorem leavesOf_textLeaf (name : String) (v : Value) : LeavesOf v (textLeaf name v) := by
  unfold textLeaf
  split
  · rename_i s hc
    exact (⟨by simp [Value.get?], by simp⟩ : LeavesOf (.string s) [([], s)]).below hc
  · exact .nil v

theorem leavesOf_leavesAt {g : Value → List (Path × Str)} (hg : ∀ v, LeavesOf v (g v))
    (name : String) (v : Value) : LeavesOf v (leavesAt g name v) := by
  unfold leavesAt
  split
  · rename_i c hc
    exact (hg c).below hc
  · exact .nil v

theorem leavesOf_arrayLeaves {g : Value → List (Path × Str)} (hg : ∀ v, LeavesOf v (g v))
    (v : Value) : LeavesOf v (arrayLeaves g v) := by
  cases v with
  | array l =>
      have hitems : ∀ n m, (∀ i, m[i]? = l[n + i]?) → LeavesOf (.array l) (itemLeaves g n m) := by
        intro n m hm
        induction m generalizing n with
        | nil => exact .nil _
        | cons w m ih =>
            have hw : (Value.array l).child? (.index n) = some w := by
              change l[n]? = some w
              have := hm 0
              simpa using this.symm
            have hhead := (hg w).below hw
            have htail := ih (n + 1) fun i => by
              have := hm (i + 1)
              rw [List.getElem?_cons_succ] at this
              rw [this]
              congr 1
              omega
            refine ⟨fun leaf hleaf => ?_, ?_⟩
            · rcases List.mem_append.mp hleaf with hleaf | hleaf
              · exact hhead.strings leaf hleaf
              · exact htail.strings leaf hleaf
            · rw [itemLeaves, List.map_append, List.nodup_append]
              refine ⟨hhead.distinct, htail.distinct, fun p hp q hq heq => ?_⟩
              obtain ⟨a, ha, rfl⟩ := List.mem_map.mp hp
              obtain ⟨b, hb, rfl⟩ := List.mem_map.mp hq
              obtain ⟨c, _, rfl⟩ := List.mem_map.mp ha
              obtain ⟨k, p, hk, hle⟩ := itemLeaves_index hb
              rw [hk] at heq
              have := PathSegment.index.inj (List.cons.inj heq).1
              omega
      exact hitems 0 l fun i => by rw [Nat.zero_add]
  | _ => exact .nil _

theorem leavesOf_outputTextLeaves (v : Value) : LeavesOf v (outputTextLeaves v) := by
  unfold outputTextLeaves
  split
  · exact leavesOf_textLeaf _ _
  · exact .nil _

theorem leavesOf_messageLeaves (v : Value) : LeavesOf v (messageLeaves v) := by
  unfold messageLeaves
  split
  · exact leavesOf_leavesAt (leavesOf_arrayLeaves leavesOf_outputTextLeaves) _ _
  · exact .nil _

theorem leavesOf_displayLeaves (eventType : Str) (v : Value) :
    LeavesOf v (displayLeaves eventType v) := by
  unfold displayLeaves
  split
  · exact leavesOf_textLeaf _ _
  split
  · exact leavesOf_textLeaf _ _
  split
  · exact leavesOf_leavesAt leavesOf_outputTextLeaves _ _
  split
  · exact leavesOf_leavesAt leavesOf_messageLeaves _ _
  split
  · exact leavesOf_leavesAt (leavesOf_leavesAt (leavesOf_arrayLeaves leavesOf_messageLeaves) _) _ _
  · exact .nil _

end AgentVeil
