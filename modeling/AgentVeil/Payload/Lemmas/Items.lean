import AgentVeil.Payload.Lemmas.Declared

/-!
# What each collector declares

Every accepted item declares exactly its text for rewriting, by the table `textFields`.
-/

namespace AgentVeil

open Rust
open Rust.Value (asStr asBool asArray asObject field hasField)

/-! ## Field checks -/

theorem asObject_eq_some {v : Value} {o : Object} : v.asObject = some o ↔ v = .object o := by
  cases v <;> simp [asObject]

theorem asArray_eq_some {v : Value} {l : List Value} : v.asArray = some l ↔ v = .array l := by
  cases v <;> simp [asArray]

theorem asStr_eq_some {v : Value} {s : Str} : v.asStr = some s ↔ v = .string s := by
  cases v <;> simp [asStr]

theorem isString_iff {v : Value} : v.isString = true ↔ ∃ s, v = .string s := by
  cases v <;> simp [Value.isString, asStr]

theorem requireString_ok_iff {o : Object} {name : Str} :
    requireString o name = .ok () ↔ ∃ s, field o name = some (.string s) := by
  unfold requireString
  cases field o name with
  | none => simp
  | some v => cases v <;> simp [asStr]

theorem ensureTextPart_ok {o : Object} (h : ensureTextPart o = .ok ()) :
    ∃ s, field o "text".toList = some (.string s) := by
  simp only [ensureTextPart, check_bind_ok_iff] at h
  exact requireString_ok_iff.mp h.2

@[simp] theorem get?_key (o : Object) (name : String) :
    (Value.object o).get? [key name] = field o name.toList := by
  simp [Value.get?, Value.child?, key, Option.bind_fun_some]

theorem typeAt_object (o : Object) : typeAt (.object o) [] = typeOf o := by
  simp only [typeAt, typeOf, List.nil_append, get?_key]

/-! ## Parts -/

/-- The two ways a part is accepted. -/
theorem collectPart_ok {base : Path} {name : String} {fieldClass : FieldClass}
    {accepts : Option Str → Except PayloadError Bool} {part : Value × Nat} {ts : List TextTarget}
    (h : collectPart base name fieldClass accepts part = .ok ts) :
    ∃ o, part.1 = .object o ∧
      ((accepts (typeOf o) = .ok true ∧ (∃ s, field o "text".toList = some (.string s)) ∧
          ts = [.new (base ++ [key name, .index part.2, key "text"]) fieldClass .rewrite]) ∨
        (accepts (typeOf o) = .ok false ∧ ts = [])) := by
  simp only [collectPart, bind_ok_iff, okOr_ok_iff, asObject_eq_some] at h
  obtain ⟨o, ho, b, hb, h⟩ := h
  refine ⟨o, ho, ?_⟩
  cases b with
  | true =>
      simp only [↓reduceIte, check_bind_ok_iff, Except.ok.injEq] at h
      exact .inl ⟨hb, ensureTextPart_ok h.1, h.2.symm⟩
  | false =>
      simp only [Bool.false_eq_true, ↓reduceIte, check_bind_ok_iff, Except.ok.injEq] at h
      exact .inr ⟨hb, h.2.2.symm⟩

theorem forall₂_imp_of_mem {α β : Type} {r s : α → β → Prop} {l : List α} {m : List β}
    (h : List.Forall₂ r l m) (himp : ∀ a ∈ l, ∀ b, r a b → s a b) : List.Forall₂ s l m := by
  induction h with
  | nil => exact .nil
  | @cons a b l m hab _ ih =>
      exact .cons (himp a (by simp) b hab) (ih fun c hc => himp c (by simp [hc]))

/-- A list of parts declares the texts of those that `accepts` takes for text. -/
theorem declares_parts {base : Path} {name : String} {fieldClass : FieldClass}
    {accepts : Option Str → Except PayloadError Bool} {parts : List Value} {ts : List TextTarget}
    {rw : Path → Prop} (h : gather (collectPart base name fieldClass accepts) parts.zipIdx = .ok ts)
    (hrw : ∀ j q, rw (.index j :: q) ↔
      q = [key "text"] ∧ accepts (typeAt (.array parts) [.index j]) = .ok true) :
    Declares (base ++ [key name]) (.array parts) rw ts := by
  obtain ⟨tss, htss, rfl⟩ := gather_ok_iff.mp h
  have hsegs : (parts.zipIdx.map fun c => PathSegment.index c.2).Nodup := by
    have hmap : (parts.zipIdx.map fun c => PathSegment.index c.2)
        = (List.range' 0 parts.length).map .index := by
      rw [← List.zipIdx_map_snd 0 parts, List.map_map]; rfl
    rw [hmap]
    exact (List.nodup_range').map fun _ _ h => by cases h; rfl
  refine declares_of_segments hsegs ?_ ?_
  · rw [List.forall₂_map_left_iff]
    refine forall₂_imp_of_mem htss fun c hc bs hbs => ?_
    obtain ⟨part, j⟩ := c
    have hj : parts[j]? = some part := by simpa using List.mk_mem_zipIdx_iff_getElem?.mp hc
    have htype : ∀ o, part = .object o → typeAt (.array parts) [.index j] = typeOf o := by
      rintro o rfl
      simp [typeAt, typeOf, Value.get?, Value.child?, hj, key, Option.bind_fun_some]
    simp only [DeclaresAt, Value.child?, hj]
    obtain ⟨o, ho, ⟨hacc, ⟨s, hs⟩, rfl⟩ | ⟨hacc, rfl⟩⟩ := collectPart_ok hbs
    · obtain rfl : part = .object o := ho
      have hpath : base ++ [key name, .index j, key "text"]
          = base ++ [key name] ++ [.index j] ++ [key "text"] := by simp
      rw [hpath]
      refine declares_of_segment (show (Value.object o).child? (key "text") = some (.string s)
        from hs) (declares_string ?_) ?_
      · simp only [true_iff, hrw, true_and]
        rw [htype o rfl]; exact hacc
      · rintro q s _ hr
        rw [((hrw j q).mp hr).1]; rfl
    · obtain rfl : part = .object o := ho
      refine declares_nil fun q s _ hr => ?_
      have hj' := ((hrw j q).mp hr).2
      rw [htype o rfl, hacc] at hj'
      cases hj'
  · intro q s hq _
    rcases q with _ | ⟨k | j, q⟩
    · simp [Value.get?] at hq
    · simp [Value.get?, Value.child?] at hq
    · simp only [Value.get?, Value.child?, Option.bind_eq_some_iff] at hq
      obtain ⟨c, hc, _⟩ := hq
      exact ⟨.index j, List.mem_map.mpr
        ⟨(c, j), List.mk_mem_zipIdx_iff_getElem?.mpr (by simpa using hc), rfl⟩, rfl⟩

/-! ## Item texts -/

/-- The text of an item, by the rows of the table for its type. -/
theorem itemText_iff {item : Value} {itemType : String} {q : Path}
    (ht : typeAt item [] = some itemType.toList) :
    ItemText item q ↔ ∃ f ∈ textFields.filter (·.itemType = itemType), f.Holds item q := by
  simp only [ItemText, ht, Option.some.injEq, List.mem_filter, decide_eq_true_eq]
  constructor
  · rintro ⟨f, hf, he, h⟩; exact ⟨f, ⟨hf, (String.toList_inj.mp he).symm⟩, h⟩
  · rintro ⟨f, ⟨hf, he⟩, h⟩; exact ⟨f, hf, by rw [he], h⟩

theorem partKind_ok_true_iff {text encrypted media : List String} {type : Option Str} :
    partKind text encrypted media type = .ok true ↔ ∃ n ∈ text, type = some n.toList := by
  unfold partKind
  by_cases h : type ∈ text.map (some ·.toList)
  · simp only [h, ↓reduceIte, true_iff]
    obtain ⟨n, hn, rfl⟩ := List.mem_map.mp h
    exact ⟨n, hn, rfl⟩
  · have hno : ¬∃ n ∈ text, type = some n.toList := by
      rintro ⟨n, hn, rfl⟩
      exact h (List.mem_map.mpr ⟨n, hn, rfl⟩)
    simp only [h, ↓reduceIte, hno, iff_false]
    split
    · simp
    · split <;> simp

section Rows

variable {f : TextField} {o : Object} {base : Path} {fieldClass : FieldClass}

theorem TextField.Holds.head {item : Value} {q : Path} (h : f.Holds item q) :
    q.head? = some (key f.name) := by
  rcases h with ⟨_, rfl⟩ | ⟨j, rfl, _⟩ <;> rfl

/-- A row of the table whose field is a string. -/
theorem declares_whole {s : Str} (hs : field o f.name.toList = some (.string s))
    (hf : f.whole = true) :
    Declares base (.object o) (f.Holds (.object o)) [.new (base ++ [key f.name]) fieldClass .rewrite] :=
  declares_of_segment (show (Value.object o).child? (key f.name) = some (.string s) from hs)
    (declares_string (by simp [TextField.Holds, hf])) fun _ _ _ hr => hr.head

/-- A row of the table whose field is a list of parts. -/
theorem declares_row {parts : List Value} {encrypted media : List String} {ts : List TextTarget}
    (hp : field o f.name.toList = some (.array parts))
    (h : gather (collectPart base f.name fieldClass (partKind f.partTypes encrypted media))
      parts.zipIdx = .ok ts) :
    Declares base (.object o) (f.Holds (.object o)) ts := by
  have hc : (Value.object o).child? (key f.name) = some (.array parts) := hp
  refine declares_of_segment hc (declares_parts h fun j q => ?_) fun _ _ _ hr => hr.head
  have htype : typeAt (.object o) [key f.name, .index j] = typeAt (.array parts) [.index j] := by
    simp [typeAt, Value.get?, hc]
  rw [partKind_ok_true_iff, ← htype]
  constructor
  · rintro (⟨_, h⟩ | ⟨j', h, ht⟩)
    · cases h
    · simp only [List.cons.injEq, PathSegment.index.injEq, true_and] at h
      obtain ⟨rfl, rfl⟩ := h
      exact ⟨rfl, ht⟩
  · rintro ⟨rfl, ht⟩
    exact .inr ⟨j, rfl, ht⟩

end Rows

/-! ## Items -/

section Items

variable {o : Object} {base : Path} {fieldClass : FieldClass} {ts : List TextTarget}

theorem Declares.congr {v : Value} {rw rw' : Path → Prop} (h : Declares base v rw ts)
    (hrw : ∀ q, rw q ↔ rw' q) : Declares base v rw' ts := by
  rwa [show rw' = rw from funext fun q => propext (hrw q).symm]

/-- An item type with one row in the table. -/
theorem declares_of_row {itemType : String} {f : TextField} (ht : typeOf o = some itemType.toList)
    (hf : textFields.filter (·.itemType = itemType) = [f])
    (h : Declares base (.object o) (f.Holds (.object o)) ts) :
    Declares base (.object o) (ItemText (.object o)) ts := by
  refine h.congr fun q => ?_
  rw [itemText_iff ((typeAt_object o).trans ht), hf]
  simp

/-- An item type without text. -/
theorem not_itemText {itemType : String} (ht : typeOf o = some itemType.toList)
    (hf : textFields.filter (·.itemType = itemType) = []) (q : Path) :
    ¬ItemText (.object o) q := by
  rw [itemText_iff ((typeAt_object o).trans ht), hf]
  simp

theorem declares_collectMessage (ht : typeOf o = some "message".toList)
    (h : collectMessage o base fieldClass = .ok ts) :
    Declares base (.object o) (ItemText (.object o)) ts := by
  refine declares_of_row ht (by decide :
    _ = [⟨"message", "content", true, ["input_text", "output_text"]⟩]) ?_
  simp only [collectMessage, bind_ok_iff, okOr_ok_iff] at h
  obtain ⟨_, _, _, _, _, _, content, hc, h⟩ := h
  split at h
  · rename_i hs
    obtain ⟨s, rfl⟩ := isString_iff.mp hs
    cases h
    exact declares_whole hc rfl
  · simp only [collectContentArray, bind_ok_iff, okOr_ok_iff, asArray_eq_some] at h
    obtain ⟨parts, rfl, h⟩ := h
    exact declares_row hc h

theorem declares_collectAgentMessage (ht : typeOf o = some "agent_message".toList)
    (h : collectAgentMessage o base = .ok ts) :
    Declares base (.object o) (ItemText (.object o)) ts := by
  refine declares_of_row ht (by decide :
    _ = [⟨"agent_message", "content", false, ["input_text"]⟩]) ?_
  simp only [collectAgentMessage, bind_ok_iff, okOr_ok_iff, Option.bind_eq_some_iff,
    asArray_eq_some] at h
  obtain ⟨_, _, _, _, _, _, _, _, parts, ⟨content, hc, rfl⟩, h⟩ := h
  exact declares_row hc h

theorem declares_collectOutputPayload {itemType : String} {allowedKeys : List String}
    (ht : typeOf o = some itemType.toList)
    (hf : textFields.filter (·.itemType = itemType) = [⟨itemType, "output", true, ["input_text"]⟩])
    (h : collectOutputPayload o base fieldClass allowedKeys = .ok ts) :
    Declares base (.object o) (ItemText (.object o)) ts := by
  refine declares_of_row ht hf ?_
  simp only [collectOutputPayload, bind_ok_iff, okOr_ok_iff] at h
  obtain ⟨_, _, _, _, _, _, output, hc, h⟩ := h
  split at h
  · rename_i hs
    obtain ⟨s, rfl⟩ := isString_iff.mp hs
    cases h
    exact declares_whole hc rfl
  · simp only [bind_ok_iff, okOr_ok_iff, asArray_eq_some] at h
    obtain ⟨parts, rfl, h⟩ := h
    exact declares_row hc h

theorem declares_collectStringField {itemType name : String} {allowedKeys : List String}
    (ht : typeOf o = some itemType.toList)
    (hf : textFields.filter (·.itemType = itemType) = [⟨itemType, name, true, []⟩])
    (h : collectStringField o base name fieldClass .rewrite allowedKeys = .ok ts) :
    Declares base (.object o) (ItemText (.object o)) ts := by
  refine declares_of_row ht hf ?_
  simp only [collectStringField, check_bind_ok_iff, requireString_ok_iff,
    Except.ok.injEq] at h
  obtain ⟨_, _, _, _, ⟨s, hs⟩, rfl⟩ := h
  exact declares_whole hs rfl

theorem declares_collectReasoningField {f : TextField}
    (hparts : f.partTypes = ["summary_text", "reasoning_text"])
    (hwhole : f.whole = false) (h : collectReasoningField o base f.name = .ok ts) :
    DeclaresAt base (.object o) (f.Holds (.object o)) (key f.name) ts := by
  have hchild : (Value.object o).child? (key f.name) = field o f.name.toList := rfl
  simp only [DeclaresAt, hchild]
  unfold collectReasoningField at h
  split at h
  · rename_i hn
    cases h
    simp [hn]
  · rename_i hn
    cases h
    rw [hn]
    exact declares_nil fun q s hq _ => by cases q <;> simp [Value.get?, Value.child?] at hq
  · rename_i parts _ hp
    simp only [bind_ok_iff, okOr_ok_iff, asArray_eq_some] at h
    obtain ⟨l, rfl, h⟩ := h
    rw [hp]
    refine declares_parts h fun j q => ?_
    have htype : typeAt (.object o) [key f.name, .index j] = typeAt (.array l) [.index j] := by
      simp [typeAt, Value.get?, hchild, hp]
    simp only [reasoningPart, partKind_ok_true_iff, ← htype, TextField.Holds, hwhole, hparts,
      Bool.false_eq_true, false_and, false_or, List.cons.injEq, PathSegment.index.injEq, true_and]
    constructor
    · rintro ⟨j', ⟨rfl, rfl⟩, ht⟩; exact ⟨rfl, ht⟩
    · rintro ⟨rfl, ht⟩; exact ⟨j, ⟨rfl, rfl⟩, ht⟩

/-- An item type with two rows in the table. -/
theorem declares_of_two_rows {itemType : String} {f g : TextField} {us vs : List TextTarget}
    (ht : typeOf o = some itemType.toList)
    (hrows : textFields.filter (·.itemType = itemType) = [f, g]) (hne : key f.name ≠ key g.name)
    (hf : DeclaresAt base (.object o) (f.Holds (.object o)) (key f.name) us)
    (hg : DeclaresAt base (.object o) (g.Holds (.object o)) (key g.name) vs) :
    Declares base (.object o) (ItemText (.object o)) (us ++ vs) := by
  have hrw : ∀ q, ItemText (.object o) q ↔ f.Holds (.object o) q ∨ g.Holds (.object o) q := by
    intro q
    rw [itemText_iff ((typeAt_object o).trans ht), hrows]
    simp
  -- below each field, the row of the other one says nothing
  have atField : ∀ {rw : Path → Prop} {seg : PathSegment} {ts : List TextTarget},
      (∀ q, ItemText (.object o) (seg :: q) ↔ rw (seg :: q)) →
      DeclaresAt base (.object o) rw seg ts →
      DeclaresAt base (.object o) (ItemText (.object o)) seg ts := by
    intro rw seg ts hiff h
    unfold DeclaresAt at h ⊢
    split
    · rename_i c hc
      simp only [hc] at h
      exact h.congr fun q => (hiff q).symm
    · rename_i hc
      simpa only [hc] using h
  have hseg : Declares base (.object o) (ItemText (.object o)) [us, vs].flatten := by
    refine declares_of_segments (show [key f.name, key g.name].Nodup by simpa using hne)
      (.cons (atField (fun q => ?_) hf) (.cons (atField (fun q => ?_) hg) .nil)) ?_
    · rw [hrw]
      exact or_iff_left fun h => hne (Option.some.inj h.head)
    · rw [hrw]
      exact or_iff_right fun h => hne (Option.some.inj h.head).symm
    · intro q _ _ hr
      rcases (hrw q).mp hr with hr | hr
      · exact ⟨key f.name, by simp, hr.head⟩
      · exact ⟨key g.name, by simp, hr.head⟩
  simpa using hseg

theorem declares_collectReasoning (ht : typeOf o = some "reasoning".toList)
    (h : collectReasoning o base = .ok ts) :
    Declares base (.object o) (ItemText (.object o)) ts := by
  simp only [collectReasoning, bind_ok_iff, gather, Except.ok.injEq] at h
  obtain ⟨_, _, _, _, _, _, _, _, us, hus, ws, ⟨vs, hvs, _, rfl, rfl⟩, rfl⟩ := h
  rw [List.append_nil]
  refine @declares_of_two_rows o base "reasoning"
    ⟨"reasoning", "summary", false, ["summary_text", "reasoning_text"]⟩
    ⟨"reasoning", "content", false, ["summary_text", "reasoning_text"]⟩ us vs ht
    (by decide) (by decide) ?_ ?_
  · exact declares_collectReasoningField rfl rfl hus
  · exact declares_collectReasoningField rfl rfl hvs

variable {rw : Path → Prop}

theorem declares_collectKnownStructuralItem (hv : (Value.object o).Canonical) (hrw : ∀ q, ¬rw q)
    (h : collectKnownStructuralItem o base = .ok ts) : Declares base (.object o) rw ts := by
  simp only [collectKnownStructuralItem, check_bind_ok_iff, Except.ok.injEq] at h
  obtain ⟨_, rfl⟩ := h
  have hchildren : ∀ names : List Str,
      (o.flatMap fun f => if f.1 ∈ names then []
        else collectAllStrings f.2 (base ++ [.key f.1]) .functionArguments)
      = (Value.object o).children.flatMap fun c => if c.1 ∈ names.map PathSegment.key then []
        else collectAllStrings c.2 (base ++ [c.1]) .functionArguments := fun names => by
    simp [Value.children, List.flatMap_map]
  rw [hchildren]
  refine declares_of_children hv rfl fun c hc => ?_
  split
  · exact declares_nil fun q _ _ => hrw _
  · exact declares_collectAllStrings (hv.of_mem_children hc) fun q => hrw _

theorem declares_collectToolArray {tools : Value} (hv : tools.Canonical) (hrw : ∀ q, ¬rw q)
    (h : collectToolArray tools base = .ok ts) : Declares base tools rw ts := by
  simp only [collectToolArray, bind_ok_iff, okOr_ok_iff, asArray_eq_some,
    Except.ok.injEq] at h
  obtain ⟨l, rfl, rfl⟩ := h
  have hchildren : (l.zipIdx.flatMap fun tool => collectToolValue tool.1 (base ++ [.index tool.2]) none)
      = (Value.array l).children.flatMap fun c => collectToolValue c.2 (base ++ [c.1]) none := by
    simp [Value.children, List.flatMap_map]
  rw [hchildren]
  exact declares_of_children hv rfl fun c hc =>
    declares_collectToolValue (hv.of_mem_children hc) fun q => hrw _

theorem canonical_field (hv : (Value.object o).Canonical) {k : Str} {v : Value}
    (h : field o k = some v) : v.Canonical := by
  have hc : (Value.object o).child? (.key k) = some v := h
  exact hv.of_child? hc

theorem declares_collectAdditionalTools (hv : (Value.object o).Canonical)
    (ht : typeOf o = some "additional_tools".toList)
    (h : collectAdditionalTools o base = .ok ts) :
    Declares base (.object o) (ItemText (.object o)) ts := by
  have hrw := not_itemText ht (by decide)
  simp only [collectAdditionalTools, bind_ok_iff, okOr_ok_iff] at h
  obtain ⟨_, _, _, _, _, _, tools, htools, h⟩ := h
  refine declares_of_segment (show (Value.object o).child? (key "tools") = some tools from htools)
    (declares_collectToolArray (canonical_field hv htools) (fun q => hrw _) h)
    fun q _ _ hr => absurd hr (hrw q)

theorem declares_collectCompaction (hrw : ∀ q, ¬rw q) (h : collectCompaction o = .ok ts) :
    Declares base (.object o) rw ts := by
  simp only [collectCompaction, bind_ok_iff] at h
  obtain ⟨_, _, _, _, h⟩ := h
  have hts : ts = [] := by
    split at h
    · simp only [bind_ok_iff, Except.ok.injEq] at h
      obtain ⟨_, _, _, _, rfl⟩ := h; rfl
    · split at h
      · simp only [bind_ok_iff, Except.ok.injEq] at h
        obtain ⟨_, _, _, _, rfl⟩ := h; rfl
      · simp only [bind_ok_iff, Except.ok.injEq] at h
        obtain ⟨_, _, _, _, rfl⟩ := h; rfl
  rw [hts]
  exact declares_nil fun q _ _ => hrw q

/-- Every accepted item declares its text, and nothing else for rewriting. -/
theorem declares_collectInputItem {item : Value} {i : Nat} (hv : item.Canonical)
    (h : collectInputItem item i = .ok ts) :
    Declares [key "input", .index i] item (ItemText item) ts := by
  simp only [collectInputItem, bind_ok_iff, okOr_ok_iff, asObject_eq_some] at h
  obtain ⟨o, rfl, itemType, ht, h⟩ := h
  have none : ∀ names : List String, (∀ n ∈ names, textFields.filter (·.itemType = n) = []) →
      itemType ∈ names.map String.toList → ∀ q, ¬ItemText (.object o) q := by
    intro names hnames hmem
    obtain ⟨n, hn, rfl⟩ := List.mem_map.mp hmem
    exact not_itemText ht (hnames n hn)
  by_cases h₁ : itemType = "message".toList
  · rw [if_pos h₁] at h; subst h₁; exact declares_collectMessage ht h
  rw [if_neg h₁] at h
  by_cases h₂ : itemType = "agent_message".toList
  · rw [if_pos h₂] at h; subst h₂; exact declares_collectAgentMessage ht h
  rw [if_neg h₂] at h
  by_cases h₃ : itemType = "function_call_output".toList
  · rw [if_pos h₃] at h; subst h₃
    exact declares_collectOutputPayload ht (by decide) h
  rw [if_neg h₃] at h
  by_cases h₄ : itemType = "custom_tool_call_output".toList
  · rw [if_pos h₄] at h; subst h₄
    exact declares_collectOutputPayload ht (by decide) h
  rw [if_neg h₄] at h
  by_cases h₅ : itemType = "function_call".toList
  · rw [if_pos h₅] at h; subst h₅
    exact declares_collectStringField ht (by decide) h
  rw [if_neg h₅] at h
  by_cases h₆ : itemType = "custom_tool_call".toList
  · rw [if_pos h₆] at h; subst h₆
    exact declares_collectStringField ht (by decide) h
  rw [if_neg h₆] at h
  by_cases h₇ : itemType = "additional_tools".toList
  · rw [if_pos h₇] at h; subst h₇; exact declares_collectAdditionalTools hv ht h
  rw [if_neg h₇] at h
  by_cases h₈ : itemType = "reasoning".toList
  · rw [if_pos h₈] at h; subst h₈; exact declares_collectReasoning ht h
  rw [if_neg h₈] at h
  by_cases h₉ : itemType ∈ ["local_shell_call", "tool_search_call", "tool_search_output",
      "web_search_call"].map String.toList
  · rw [if_pos h₉] at h
    exact declares_collectKnownStructuralItem hv (none _ (by decide) h₉) h
  rw [if_neg h₉] at h
  by_cases h₁₀ : itemType ∈ ["compaction", "compaction_summary", "context_compaction",
      "compaction_trigger"].map String.toList
  · rw [if_pos h₁₀] at h
    exact declares_collectCompaction (none _ (by decide) h₁₀) h
  rw [if_neg h₁₀] at h
  split at h <;> cases h

end Items

end AgentVeil
