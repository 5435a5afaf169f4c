import AgentVeil.Rust.Json

/-!
# Shapes of documents

A `Shape` describes documents: a scalar, an array of one shape, an object by its fields. A document
and the value that is stored for it have the same shapes.
-/

namespace AgentVeil.Rust

/-! ## Documents and values -/

namespace Raw

def isUnit : Raw → Bool
  | unit => true
  | _ => false

def asBool : Raw → Option Bool
  | bool b => some b
  | _ => none

def asStr : Raw → Option Str
  | str s => some s
  | _ => none

def asSeq : Raw → Option (List Raw)
  | seq items => some items
  | _ => none

def asMap : Raw → Option (List (Str × Raw))
  | map fields => some fields
  | _ => none

mutual

/-- The predicate holds of the document and of every part of it. -/
def everywhere (p : Raw → Bool) : Raw → Bool
  | unit => p unit
  | bool b => p (bool b)
  | i64 n => p (i64 n)
  | u64 n => p (u64 n)
  | f64 bits => p (f64 bits)
  | str s => p (str s)
  | seq items => p (seq items) && everywhereItems p items
  | map fields => p (map fields) && everywhereFields p fields

def everywhereItems (p : Raw → Bool) : List Raw → Bool
  | [] => true
  | raw :: rest => everywhere p raw && everywhereItems p rest

def everywhereFields (p : Raw → Bool) : List (Str × Raw) → Bool
  | [] => true
  | (_, raw) :: rest => everywhere p raw && everywhereFields p rest

end

/-- No object repeats a key. -/
def distinct (raw : Raw) : Bool :=
  raw.everywhere fun part => part.asMap.all fun fields => (fields.map Prod.fst).Nodup

/-- No number is infinite or not a number. -/
def finite (raw : Raw) : Bool :=
  raw.everywhere fun
    | f64 bits => isFiniteF64 bits
    | _ => true

theorem everywhereItems_eq (p : Raw → Bool) (items : List Raw) :
    everywhereItems p items = items.all fun raw => everywhere p raw := by
  induction items with
  | nil => rfl
  | cons raw rest ih => rw [everywhereItems, ih, List.all_cons]

theorem everywhereFields_eq (p : Raw → Bool) (fields : List (Str × Raw)) :
    everywhereFields p fields = fields.all fun f => everywhere p f.2 := by
  induction fields with
  | nil => rfl
  | cons f rest ih => rw [everywhereFields, ih, List.all_cons]

mutual

/-- The value is the document with the fields of every object in some order. -/
def Stores : Raw → Value → Prop
  | unit, v => v = .null
  | bool b, v => v = .bool b
  | i64 n, v => v = .number (if n < 0 then .negInt n else .posInt n.toUInt64)
  | u64 n, v => v = .number (.posInt n)
  | f64 bits, v => v = .number (.float bits)
  | str s, v => v = .string s
  | seq items, v => ∃ values, v = .array values ∧ StoresItems items values
  | map fields, v => ∃ object stored, v = .object object ∧ object.Perm stored ∧
      StoresFields fields stored

def StoresItems : List Raw → List Value → Prop
  | [], values => values = []
  | raw :: rest, values => ∃ v vs, values = v :: vs ∧ Stores raw v ∧ StoresItems rest vs

def StoresFields : List (Str × Raw) → Object → Prop
  | [], stored => stored = []
  | (k, raw) :: rest, stored => ∃ v vs, stored = (k, v) :: vs ∧ Stores raw v ∧
      StoresFields rest vs

end

end Raw

namespace Value

theorem documentItems_eq (l : List Value) : documentItems l = l.map document := by
  induction l with
  | nil => rfl
  | cons v l ih => rw [documentItems, ih, List.map_cons]

theorem documentFields_eq (o : Object) : documentFields o = o.map fun f => (f.1, document f.2) := by
  induction o with
  | nil => rfl
  | cons f o ih => rw [documentFields, ih, List.map_cons]

@[simp] theorem isUnit_document (v : Value) : v.document.isUnit = v.isNull := by
  cases v with
  | number n => cases n <;> rfl
  | _ => rfl

@[simp] theorem asBool_document (v : Value) : v.document.asBool = v.asBool := by
  cases v with
  | number n => cases n <;> rfl
  | _ => rfl

@[simp] theorem asStr_document (v : Value) : v.document.asStr = v.asStr := by
  cases v with
  | number n => cases n <;> rfl
  | _ => rfl

@[simp] theorem asSeq_document (v : Value) :
    v.document.asSeq = v.asArray.map fun l => l.map document := by
  cases v with
  | number n => cases n <;> rfl
  | array l => exact congrArg some (documentItems_eq l)
  | _ => rfl

@[simp] theorem asMap_document (v : Value) :
    v.document.asMap = v.asObject.map fun o => o.map fun f => (f.1, document f.2) := by
  cases v with
  | number n => cases n <;> rfl
  | object o => exact congrArg some (documentFields_eq o)
  | _ => rfl

end Value

/-! ## Shapes -/

/-- A field of an object: its name, whether it must be there, and its shape. -/
structure FieldSpec (σ : Type) where
  name : String
  required : Bool
  shape : σ

inductive Shape where
  | any
  | null
  | bool
  | exactly (b : Bool)
  | string
  | literal (s : String)
  | array (item : Shape)
  | atMost (n : Nat) (item : Shape)
  | oneOf (shapes : List Shape)
  /-- An object with these fields, and with others of the shape `other` if there is one. -/
  | record (fields : List (FieldSpec Shape)) (other : Option Shape)

namespace Shape

@[elab_as_elim]
theorem induction {P : Shape → Prop} (any : P .any) (null : P .null) (bool : P .bool)
    (exactly : ∀ b, P (.exactly b)) (string : P .string) (literal : ∀ s, P (.literal s))
    (array : ∀ item, P item → P (.array item)) (atMost : ∀ n item, P item → P (.atMost n item))
    (oneOf : ∀ shapes, (∀ s ∈ shapes, P s) → P (.oneOf shapes))
    (record : ∀ fields other, (∀ f ∈ fields, P f.shape) → (∀ s ∈ other, P s) →
      P (.record fields other)) (shape : Shape) : P shape :=
  @Shape.rec P (fun l => ∀ s ∈ l, P s) (fun l => ∀ f ∈ l, P f.shape) (fun o => ∀ s ∈ o, P s)
    (fun f => P f.shape) any null bool exactly string literal array atMost oneOf record (by simp)
    (fun _ _ hs hl => List.forall_mem_cons.mpr ⟨hs, hl⟩) (by simp)
    (fun _ _ hf hl => List.forall_mem_cons.mpr ⟨hf, hl⟩) (by simp) (fun _ hs => by simpa using hs)
    (fun _ _ _ hs => hs) shape

mutual

def accepts : Shape → Raw → Bool
  | any, _ => true
  | null, raw => raw.isUnit
  | bool, raw => raw.asBool.isSome
  | exactly b, raw => raw.asBool = some b
  | string, raw => raw.asStr.isSome
  | literal s, raw => raw.asStr = some s.toList
  | array item, raw => raw.asSeq.any fun items => items.all fun r => accepts item r
  | atMost n item, raw =>
      raw.asSeq.any fun items => items.length ≤ n && items.all fun r => accepts item r
  | oneOf shapes, raw => anyAccepts shapes raw
  | record fields other, raw => raw.asMap.any fun pairs =>
      (pairs.all fun p => (declared fields p.1 p.2).getD (otherAccepts other p.2)) &&
        fields.all fun f => !f.required || pairs.any (·.1 = f.name.toList)

def anyAccepts : List Shape → Raw → Bool
  | [], _ => false
  | shape :: rest, raw => accepts shape raw || anyAccepts rest raw

/-- Whether the field under this name has its shape, if there is one. -/
def declared : List (FieldSpec Shape) → Str → Raw → Option Bool
  | [], _, _ => none
  | ⟨name, _, shape⟩ :: rest, k, raw =>
      if k = name.toList then some (accepts shape raw) else declared rest k raw

def otherAccepts : Option Shape → Raw → Bool
  | none, _ => false
  | some shape, raw => accepts shape raw

end

theorem anyAccepts_eq (shapes : List Shape) (raw : Raw) :
    anyAccepts shapes raw = shapes.any (·.accepts raw) := by
  induction shapes with
  | nil => rfl
  | cons s l ih => rw [anyAccepts, ih, List.any_cons]

theorem otherAccepts_eq (other : Option Shape) (raw : Raw) :
    otherAccepts other raw = other.any (·.accepts raw) := by
  cases other <;> rfl

end Shape

/-! ## The shapes of a value -/

namespace Shape

attribute [local simp] accepts

theorem accepts_any (raw : Raw) : any.accepts raw = true := rfl

theorem accepts_null {v : Value} : null.accepts v.document = true ↔ v = .null := by
  cases v <;> simp [Value.isNull]

theorem accepts_bool {v : Value} : bool.accepts v.document = true ↔ ∃ b, v = .bool b := by
  cases v <;> simp [Value.asBool]

theorem accepts_exactly {b : Bool} {v : Value} :
    (exactly b).accepts v.document = true ↔ v = .bool b := by
  cases v <;> simp [Value.asBool]

theorem accepts_string {v : Value} : string.accepts v.document = true ↔ ∃ s, v = .string s := by
  cases v <;> simp [Value.asStr]

theorem accepts_literal {s : String} {v : Value} :
    (literal s).accepts v.document = true ↔ v = .string s.toList := by
  cases v <;> simp [Value.asStr]

theorem accepts_array {item : Shape} {v : Value} : (array item).accepts v.document = true ↔
    ∃ l, v = .array l ∧ ∀ w ∈ l, item.accepts w.document = true := by
  cases v <;> simp [Value.asArray]

theorem accepts_atMost {n : Nat} {item : Shape} {v : Value} :
    (atMost n item).accepts v.document = true ↔
      ∃ l, v = .array l ∧ l.length ≤ n ∧ ∀ w ∈ l, item.accepts w.document = true := by
  cases v <;> simp [Value.asArray]

theorem accepts_oneOf {shapes : List Shape} {raw : Raw} :
    (oneOf shapes).accepts raw = true ↔ ∃ s ∈ shapes, s.accepts raw = true := by
  rw [accepts, anyAccepts_eq, List.any_eq_true]

end Shape

/-! ## A document and its value -/

namespace Raw

theorem storesItems_iff {items : List Raw} {values : List Value} :
    StoresItems items values ↔ List.Forall₂ Stores items values := by
  induction items generalizing values with
  | nil => simp [StoresItems]
  | cons raw rest ih =>
      simp only [StoresItems, ih, List.forall₂_cons_left_iff]
      constructor
      · intro ⟨v, vs, hvalues, hv, hvs⟩
        exact ⟨v, vs, hv, hvs, hvalues⟩
      · intro ⟨v, vs, hv, hvs, hvalues⟩
        exact ⟨v, vs, hvalues, hv, hvs⟩

theorem storesFields_iff {fields : List (Str × Raw)} {stored : Object} :
    StoresFields fields stored ↔
      List.Forall₂ (fun f g => g.1 = f.1 ∧ Stores f.2 g.2) fields stored := by
  induction fields generalizing stored with
  | nil => simp [StoresFields]
  | cons f rest ih =>
      simp only [StoresFields, ih, List.forall₂_cons_left_iff]
      constructor
      · intro ⟨v, vs, hstored, hv, hvs⟩
        exact ⟨(f.1, v), vs, ⟨rfl, hv⟩, hvs, hstored⟩
      · intro ⟨⟨k, v⟩, vs, ⟨hk, hv⟩, hvs, hstored⟩
        simp only at hk
        exact ⟨v, vs, hk ▸ hstored, hv, hvs⟩

variable {raw : Raw} {v : Value}

theorem Stores.isUnit (h : raw.Stores v) : raw.isUnit = v.isNull := by
  cases raw with
  | seq items => obtain ⟨_, rfl, _⟩ := h; rfl
  | map fields => obtain ⟨_, _, rfl, _⟩ := h; rfl
  | _ => cases h; rfl

theorem Stores.asBool (h : raw.Stores v) : raw.asBool = v.asBool := by
  cases raw with
  | seq items => obtain ⟨_, rfl, _⟩ := h; rfl
  | map fields => obtain ⟨_, _, rfl, _⟩ := h; rfl
  | _ => cases h; rfl

theorem Stores.asStr (h : raw.Stores v) : raw.asStr = v.asStr := by
  cases raw with
  | seq items => obtain ⟨_, rfl, _⟩ := h; rfl
  | map fields => obtain ⟨_, _, rfl, _⟩ := h; rfl
  | _ => cases h; rfl

/-- The items of an array, those of the document beside those of the value. -/
theorem Stores.asSeq (h : raw.Stores v) :
    (raw.asSeq = none ∧ v.asArray = none) ∨
      ∃ items values, raw.asSeq = some items ∧ v.asArray = some values ∧
        List.Forall₂ Stores items values := by
  cases raw with
  | seq items =>
      obtain ⟨values, rfl, hvalues⟩ := h
      exact .inr ⟨items, values, rfl, rfl, storesItems_iff.mp hvalues⟩
  | map fields =>
      obtain ⟨_, _, rfl, _⟩ := h
      exact .inl ⟨rfl, rfl⟩
  | _ => cases h; exact .inl ⟨rfl, rfl⟩

/-- The fields of an object, those of the document beside those of the value in their order. -/
theorem Stores.asMap (h : raw.Stores v) :
    (raw.asMap = none ∧ v.asObject = none) ∨
      ∃ fields object stored, raw.asMap = some fields ∧ v.asObject = some object ∧
        object.Perm stored ∧ List.Forall₂ (fun f g => g.1 = f.1 ∧ Stores f.2 g.2) fields stored := by
  cases raw with
  | seq items =>
      obtain ⟨_, rfl, _⟩ := h
      exact .inl ⟨rfl, rfl⟩
  | map fields =>
      obtain ⟨object, stored, rfl, hperm, hstored⟩ := h
      exact .inr ⟨fields, object, stored, rfl, rfl, hperm, storesFields_iff.mp hstored⟩
  | _ => cases h; exact .inl ⟨rfl, rfl⟩

end Raw

namespace Shape

theorem all_of_forall₂ {α β : Type} {r : α → β → Prop} {p : α → Bool} {q : β → Bool} {l : List α}
    {m : List β} (h : List.Forall₂ r l m) (hpq : ∀ a b, r a b → p a = q b) : l.all p = m.all q := by
  induction h with
  | nil => rfl
  | cons hab _ ih => rw [List.all_cons, List.all_cons, hpq _ _ hab, ih]

theorem any_of_forall₂ {α β : Type} {r : α → β → Prop} {p : α → Bool} {q : β → Bool} {l : List α}
    {m : List β} (h : List.Forall₂ r l m) (hpq : ∀ a b, r a b → p a = q b) : l.any p = m.any q := by
  induction h with
  | nil => rfl
  | cons hab _ ih => rw [List.any_cons, List.any_cons, hpq _ _ hab, ih]

theorem declared_congr {fields : List (FieldSpec Shape)} {raw raw' : Raw} (k : Str)
    (h : ∀ f ∈ fields, f.shape.accepts raw = f.shape.accepts raw') :
    declared fields k raw = declared fields k raw' := by
  induction fields with
  | nil => rfl
  | cons f rest ih =>
      obtain ⟨hf, hrest⟩ := List.forall_mem_cons.mp h
      simp only [declared, ih hrest]
      rw [hf]

/-- A document and the value that is stored for it have the same shapes. -/
theorem accepts_of_stores (shape : Shape) {raw : Raw} {v : Value} (h : raw.Stores v) :
    shape.accepts raw = shape.accepts v.document := by
  induction shape using Shape.induction generalizing raw v with
  | any => rfl
  | null => simp only [accepts, h.isUnit, Value.isUnit_document]
  | bool => simp only [accepts, h.asBool, Value.asBool_document]
  | exactly b => simp only [accepts, h.asBool, Value.asBool_document]
  | string => simp only [accepts, h.asStr, Value.asStr_document]
  | literal s => simp only [accepts, h.asStr, Value.asStr_document]
  | array item ih =>
      simp only [accepts, Value.asSeq_document]
      rcases h.asSeq with ⟨hraw, hv⟩ | ⟨items, values, hraw, hv, hall⟩
      · rw [hraw, hv]
        rfl
      · simp only [hraw, hv, Option.map_some, Option.any_some, List.all_map]
        exact all_of_forall₂ hall fun r w hrw => ih hrw
  | atMost n item ih =>
      simp only [accepts, Value.asSeq_document]
      rcases h.asSeq with ⟨hraw, hv⟩ | ⟨items, values, hraw, hv, hall⟩
      · rw [hraw, hv]
        rfl
      · simp only [hraw, hv, Option.map_some, Option.any_some, List.all_map, List.length_map,
          hall.length_eq]
        congr 1
        exact all_of_forall₂ hall fun r w hrw => ih hrw
  | oneOf shapes ih =>
      simp only [accepts, anyAccepts_eq]
      rw [Bool.eq_iff_iff, List.any_eq_true, List.any_eq_true]
      exact exists_congr fun s => and_congr_right fun hs => by rw [ih s hs h]
  | record fields other ihf iho =>
      simp only [accepts, Value.asMap_document]
      rcases h.asMap with ⟨hraw, hv⟩ | ⟨pairs, object, stored, hraw, hv, hperm, hall⟩
      · rw [hraw, hv]
        rfl
      · have hother : ∀ r w, Raw.Stores r w →
            otherAccepts other r = otherAccepts other w.document := by
          intro r w hrw
          cases other with
          | none => rfl
          | some s => exact iho s rfl hrw
        have hpairs : pairs.all (fun p => (declared fields p.1 p.2).getD (otherAccepts other p.2))
            = object.all fun g => (declared fields g.1 g.2.document).getD
                (otherAccepts other g.2.document) := by
          rw [hperm.all_eq]
          apply all_of_forall₂ hall
          intro f g ⟨hk, hfg⟩
          rw [hk, hother _ _ hfg, declared_congr f.1 fun d hd => ihf d hd hfg]
        have hthere : ∀ k : Str, pairs.any (·.1 = k) = object.any (·.1 = k) := by
          intro k
          rw [hperm.any_eq]
          apply any_of_forall₂ hall
          intro f g ⟨hk, _⟩
          rw [hk]
        simp only [hraw, hv, Option.map_some, Option.any_some, List.all_map, List.any_map,
          Function.comp_def, hpairs, hthere]

end Shape

/-! ## The fields of a value -/

open Value (field hasField field_eq_some_iff)

/-- The field has its shape if it is there, and it is there if it is required. -/
def FieldSpec.Holds (d : FieldSpec Shape) (o : Object) : Prop :=
  match field o d.name.toList with
  | none => d.required = false
  | some v => d.shape.accepts v.document = true

namespace Shape

theorem declared_eq (fields : List (FieldSpec Shape)) (k : Str) (raw : Raw) :
    declared fields k raw
      = (fields.find? (·.name.toList = k)).map fun d => d.shape.accepts raw := by
  induction fields with
  | nil => rfl
  | cons d rest ih =>
      rw [declared, ih, List.find?_cons]
      by_cases hk : k = d.name.toList
      · simp [hk]
      · simp [hk, Ne.symm hk]

theorem find?_name {fields : List (FieldSpec Shape)} (hf : (fields.map FieldSpec.name).Nodup)
    {d : FieldSpec Shape} (hd : d ∈ fields) : fields.find? (·.name.toList = d.name.toList) = some d := by
  cases h : fields.find? (·.name.toList = d.name.toList) with
  | none =>
      have := List.find?_eq_none.mp h d hd
      simp at this
  | some d' =>
      have hname : d'.name.toList = d.name.toList := by simpa using List.find?_some h
      rw [List.inj_on_of_nodup_map hf (List.mem_of_find?_eq_some h) hd
        (String.toList_inj.mp hname)]

/-- An object has the shape of a record when each of its fields is declared or has the shape of the
others, and each declared field is as declared. -/
theorem record_iff {fields : List (FieldSpec Shape)} (hf : (fields.map FieldSpec.name).Nodup)
    (other : Option Shape) {o : Object} (ho : (o.map Prod.fst).Nodup) :
    (record fields other).accepts (Value.object o).document = true ↔
      (∀ f ∈ o, (∃ d ∈ fields, d.name.toList = f.1) ∨
        ∃ s ∈ other, s.accepts f.2.document = true) ∧ ∀ d ∈ fields, d.Holds o := by
  simp only [accepts, Value.asMap_document, Value.asObject, Option.map_some, Option.any_some,
    Bool.and_eq_true, List.all_eq_true, List.mem_map, forall_exists_index, and_imp,
    forall_apply_eq_imp_iff₂, declared_eq, otherAccepts_eq, Bool.or_eq_true, Bool.not_eq_true',
    List.any_eq_true, decide_eq_true_eq, exists_exists_and_eq_and]
  constructor
  · intro ⟨hall, hreq⟩
    constructor
    · intro f hfo
      have := hall f hfo
      cases hfind : fields.find? (·.name.toList = f.1) with
      | none =>
          rw [hfind] at this
          exact .inr (by simpa [Option.any_eq_true] using this)
      | some d =>
          exact .inl ⟨d, List.mem_of_find?_eq_some hfind, by simpa using List.find?_some hfind⟩
    · intro d hd
      unfold FieldSpec.Holds
      cases hv : field o d.name.toList with
      | none =>
          refine (hreq d hd).resolve_right fun ⟨f, hfo, hk⟩ => ?_
          rw [← hk, (field_eq_some_iff ho).mpr hfo] at hv
          cases hv
      | some v =>
          have := hall _ ((field_eq_some_iff ho).mp hv)
          simpa [find?_name hf hd] using this
  · intro ⟨hall, hholds⟩
    constructor
    · intro f hfo
      cases hfind : fields.find? (·.name.toList = f.1) with
      | none =>
          rcases hall f hfo with ⟨d, hd, hk⟩ | hother
          · have := List.find?_eq_none.mp hfind d hd
            simp [hk] at this
          · simpa [Option.any_eq_true] using hother
      | some d =>
          have hk : d.name.toList = f.1 := by simpa using List.find?_some hfind
          have := hholds d (List.mem_of_find?_eq_some hfind)
          rw [FieldSpec.Holds, hk, (field_eq_some_iff ho).mpr hfo] at this
          simpa using this
    · intro d hd
      have := hholds d hd
      unfold FieldSpec.Holds at this
      cases hv : field o d.name.toList with
      | none =>
          rw [hv] at this
          exact .inl this
      | some v => exact .inr ⟨_, (field_eq_some_iff ho).mp hv, rfl⟩

/-- A record without other fields. -/
theorem closed_iff {fields : List (FieldSpec Shape)} (hf : (fields.map FieldSpec.name).Nodup) {o : Object}
    (ho : (o.map Prod.fst).Nodup) :
    (record fields none).accepts (Value.object o).document = true ↔
      (∀ k ∈ o.map Prod.fst, k ∈ (fields.map FieldSpec.name).map String.toList) ∧
        ∀ d ∈ fields, d.Holds o := by
  rw [record_iff hf none ho]
  simp [List.mem_map]

theorem accepts_record {fields : List (FieldSpec Shape)} {other : Option Shape} {v : Value}
    (h : (record fields other).accepts v.document = true) : ∃ o, v = .object o := by
  cases v with
  | object o => exact ⟨o, rfl⟩
  | number n => cases n <;> cases h
  | _ => cases h

/-- The shape of a field that is there. -/
theorem holds_required {name : String} {shape : Shape} {o : Object} :
    (⟨name, true, shape⟩ : FieldSpec Shape).Holds o ↔
      ∃ v, field o name.toList = some v ∧ shape.accepts v.document = true := by
  unfold FieldSpec.Holds
  cases field o name.toList <;> simp

theorem holds_optional {name : String} {shape : Shape} {o : Object} :
    (⟨name, false, shape⟩ : FieldSpec Shape).Holds o ↔
      ∀ v, field o name.toList = some v → shape.accepts v.document = true := by
  unfold FieldSpec.Holds
  cases field o name.toList <;> simp

end Shape

end AgentVeil.Rust
