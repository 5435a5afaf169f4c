import AgentVeil.Rust.Collections
import AgentVeil.Rust.Utf8
import Mathlib.Data.List.Lex
import Mathlib.Data.Char

/-!
# JSON trees

The values of `serde_json`. An object is a map ordered by its keys, kept as the list of its fields;
`Canonical` says that the keys ascend and that the numbers have their one representation. A `Raw`
is a document as a parser reports it, with the fields of an object in the order of the text.
-/

namespace AgentVeil.Rust

/-! ## Values -/

/-- `serde_json::Number`; a float is kept by its bits. -/
inductive Number where
  | posInt (n : UInt64)
  | negInt (n : Int64)
  | float (bits : UInt64)
  deriving DecidableEq

inductive Value where
  | null
  | bool (b : Bool)
  | number (n : Number)
  | string (s : Str)
  | array (items : List Value)
  | object (fields : List (Str × Value))

/-- An object, `serde_json::Map<String, Value>`. -/
abbrev Object := List (Str × Value)

inductive PathSegment where
  | key (k : Str)
  | index (i : Nat)
  deriving DecidableEq

abbrev Path := List PathSegment

namespace Value

def asObject : Value → Option Object
  | object o => some o
  | _ => none

def asArray : Value → Option (List Value)
  | array l => some l
  | _ => none

def asStr : Value → Option Str
  | string s => some s
  | _ => none

def asBool : Value → Option Bool
  | bool b => some b
  | _ => none

def isString (v : Value) : Bool := v.asStr.isSome

def isNull : Value → Bool
  | null => true
  | _ => false

@[elab_as_elim]
theorem induction {P : Value → Prop} (null : P .null) (bool : ∀ b, P (.bool b))
    (number : ∀ n, P (.number n)) (string : ∀ s, P (.string s))
    (array : ∀ l, (∀ v ∈ l, P v) → P (.array l))
    (object : ∀ o, (∀ f ∈ o, P f.2) → P (.object o)) (v : Value) : P v :=
  @Value.rec P (fun l => ∀ v ∈ l, P v) (fun o => ∀ f ∈ o, P f.2) (fun f => P f.2) null bool number
    string array object (by simp) (fun _ _ hv hl => List.forall_mem_cons.mpr ⟨hv, hl⟩) (by simp)
    (fun _ _ hf ho => List.forall_mem_cons.mpr ⟨hf, ho⟩) (fun _ _ hv => hv) v

mutual

def beq : Value → Value → Bool
  | null, null => true
  | bool a, bool b => a = b
  | number a, number b => a = b
  | string a, string b => a = b
  | array a, array b => beqItems a b
  | object a, object b => beqFields a b
  | _, _ => false

def beqItems : List Value → List Value → Bool
  | [], [] => true
  | v :: l, w :: m => beq v w && beqItems l m
  | _, _ => false

def beqFields : Object → Object → Bool
  | [], [] => true
  | (j, v) :: l, (k, w) :: m => j = k && beq v w && beqFields l m
  | _, _ => false

end

theorem beqItems_iff {l m : List Value} (ih : ∀ v ∈ l, ∀ w, beq v w = true ↔ v = w) :
    beqItems l m = true ↔ l = m := by
  induction l generalizing m with
  | nil => cases m <;> simp [beqItems]
  | cons v l ihl =>
      cases m with
      | nil => simp [beqItems]
      | cons w m =>
          rw [List.forall_mem_cons] at ih
          simp [beqItems, ih.1, ihl ih.2]

theorem beqFields_iff {l m : Object} (ih : ∀ f ∈ l, ∀ w, beq f.2 w = true ↔ f.2 = w) :
    beqFields l m = true ↔ l = m := by
  induction l generalizing m with
  | nil => cases m <;> simp [beqFields]
  | cons f l ihl =>
      cases m with
      | nil => simp [beqFields]
      | cons g m =>
          rw [List.forall_mem_cons] at ih
          obtain ⟨j, v⟩ := f
          obtain ⟨k, w⟩ := g
          simp [beqFields, ih.1, ihl ih.2]

theorem beq_iff (v w : Value) : beq v w = true ↔ v = w := by
  induction v using Value.induction generalizing w with
  | array l ih => cases w <;> simp [beq, beqItems_iff fun v hv w => ih v hv w]
  | object o ih => cases w <;> simp [beq, beqFields_iff fun f hf w => ih f hf w]
  | _ => cases w <;> simp [beq]

instance : DecidableEq Value := fun v w => decidable_of_iff _ (beq_iff v w)

/-! ## Paths -/

/-- The parts of a value, each under the segment that leads to it. -/
def children : Value → List (PathSegment × Value)
  | array l => l.zipIdx.map fun c => (.index c.2, c.1)
  | object o => o.map fun f => (.key f.1, f.2)
  | _ => []

theorem childInduction {P : Value → Prop} (h : ∀ v, (∀ c ∈ children v, P c.2) → P v) (v : Value) :
    P v := by
  induction v using Value.induction with
  | array l ih =>
      refine h _ fun c hc => ?_
      obtain ⟨d, hd, rfl⟩ := List.mem_map.mp hc
      exact ih _ (List.fst_mem_of_mem_zipIdx hd)
  | object o ih =>
      refine h _ fun c hc => ?_
      obtain ⟨f, hf, rfl⟩ := List.mem_map.mp hc
      exact ih f hf
  | _ => exact h _ (by simp [children])

/-- `Map::get`. -/
def field (o : Object) (k : Str) : Option Value := (o.find? (·.1 = k)).map Prod.snd

/-- `Map::contains_key`. -/
def hasField (o : Object) (k : Str) : Bool := (field o k).isSome

def child? : Value → PathSegment → Option Value
  | object o, .key k => field o k
  | array l, .index i => l[i]?
  | _, _ => none

/-- The value at a path. -/
def get? : Value → Path → Option Value
  | v, [] => some v
  | v, seg :: p => (v.child? seg).bind (get? · p)

/-- Writes the child under a segment that is there. -/
def putChild : Value → PathSegment → Value → Value
  | object o, .key k, c => object (o.map fun f => if f.1 = k then (f.1, c) else f)
  | array l, .index i, c => array (l.set i c)
  | v, _, _ => v

/-- Writes the value at a path that is there. -/
def set? : Value → Path → Value → Option Value
  | _, [], w => some w
  | v, seg :: p, w => (v.child? seg).bind fun c => (set? c p w).map (v.putChild seg)

/-! ## Strings -/

mutual

/-- The string values of a tree, each with its path. -/
def leaves : Value → List (Path × Str)
  | string s => [([], s)]
  | array l => leavesItems 0 l
  | object o => leavesFields o
  | _ => []

def leavesItems : Nat → List Value → List (Path × Str)
  | _, [] => []
  | i, v :: l => (leaves v).map (fun p => (.index i :: p.1, p.2)) ++ leavesItems (i + 1) l

def leavesFields : Object → List (Path × Str)
  | [] => []
  | (k, v) :: o => (leaves v).map (fun p => (.key k :: p.1, p.2)) ++ leavesFields o

end

mutual

/-- The keys of a tree, one for each field of each object. -/
def keys : Value → List Str
  | array l => keysItems l
  | object o => keysFields o
  | _ => []

def keysItems : List Value → List Str
  | [] => []
  | v :: l => keys v ++ keysItems l

def keysFields : Object → List Str
  | [] => []
  | (k, v) :: o => k :: keys v ++ keysFields o

end

mutual

/-- The same tree with every string value replaced, by its path and its text. -/
def mapStrings : (Path → Str → Str) → Value → Value
  | f, string s => string (f [] s)
  | f, array l => array (mapStringsItems f 0 l)
  | f, object o => object (mapStringsFields f o)
  | _, null => null
  | _, bool b => bool b
  | _, number n => number n

def mapStringsItems : (Path → Str → Str) → Nat → List Value → List Value
  | _, _, [] => []
  | f, i, v :: l => mapStrings (fun p => f (.index i :: p)) v :: mapStringsItems f (i + 1) l

def mapStringsFields : (Path → Str → Str) → Object → Object
  | _, [] => []
  | f, (k, v) :: o => (k, mapStrings (fun p => f (.key k :: p)) v) :: mapStringsFields f o

end

/-! ## Fields and children -/

theorem leavesItems_eq (i : Nat) (l : List Value) :
    leavesItems i l
      = (l.zipIdx i).flatMap fun c => (leaves c.1).map fun p => (.index c.2 :: p.1, p.2) := by
  induction l generalizing i with
  | nil => rfl
  | cons v l ih => simp [leavesItems, ih]

theorem leavesFields_eq (o : Object) :
    leavesFields o = o.flatMap fun f => (leaves f.2).map fun p => (.key f.1 :: p.1, p.2) := by
  induction o with
  | nil => rfl
  | cons f o ih => obtain ⟨k, v⟩ := f; simp [leavesFields, ih]

/-- The string values are the value itself and those of its children. -/
theorem leaves_eq (v : Value) : leaves v = (v.asStr.toList.map fun s => ([], s)) ++
    (children v).flatMap fun c => (leaves c.2).map fun p => (c.1 :: p.1, p.2) := by
  cases v with
  | array l => simp [leaves, leavesItems_eq, children, asStr, List.flatMap_map]
  | object o => simp [leaves, leavesFields_eq, children, asStr, List.flatMap_map]
  | _ => simp [leaves, children, asStr]

theorem mapStringsItems_eq (f : Path → Str → Str) (i : Nat) (l : List Value) :
    mapStringsItems f i l
      = (l.zipIdx i).map fun c => mapStrings (fun p => f (.index c.2 :: p)) c.1 := by
  induction l generalizing i with
  | nil => rfl
  | cons v l ih => simp [mapStringsItems, ih]

theorem mapStringsFields_eq (f : Path → Str → Str) (o : Object) :
    mapStringsFields f o = o.map fun e => (e.1, mapStrings (fun p => f (.key e.1 :: p)) e.2) := by
  induction o with
  | nil => rfl
  | cons e o ih => obtain ⟨k, v⟩ := e; simp [mapStringsFields, ih]

@[simp] theorem field_mapStringsFields (f : Path → Str → Str) (o : Object) (k : Str) :
    field (mapStringsFields f o) k = (field o k).map (mapStrings fun p => f (.key k :: p)) := by
  rw [mapStringsFields_eq]
  induction o with
  | nil => rfl
  | cons e o ih =>
      unfold field at ih ⊢
      by_cases h : e.1 = k
      · subst h; simp
      · simpa [List.find?_cons_of_neg, h] using ih

theorem getElem?_mapStringsItems (f : Path → Str → Str) (l : List Value) (i : Nat) :
    (mapStringsItems f 0 l)[i]? = l[i]?.map (mapStrings fun p => f (.index i :: p)) := by
  rw [mapStringsItems_eq, List.getElem?_map, List.getElem?_zipIdx]
  cases l[i]? <;> simp

theorem child?_mapStrings (f : Path → Str → Str) (v : Value) (seg : PathSegment) :
    (mapStrings f v).child? seg = (v.child? seg).map (mapStrings fun p => f (seg :: p)) := by
  cases v with
  | array l => cases seg <;> simp [mapStrings, child?, getElem?_mapStringsItems]
  | object o => cases seg <;> simp [mapStrings, child?]
  | _ => rfl

/-- A replacement acts below each path. -/
theorem get?_mapStrings (f : Path → Str → Str) (v : Value) (p : Path) :
    (mapStrings f v).get? p = (v.get? p).map (mapStrings fun q => f (p ++ q)) := by
  induction p generalizing f v with
  | nil => rfl
  | cons seg p ih =>
      simp only [get?, child?_mapStrings, Option.bind_map]
      cases v.child? seg with
      | none => rfl
      | some c => exact ih _ c

theorem mapStrings_mapStrings (f g : Path → Str → Str) (v : Value) :
    mapStrings f (mapStrings g v) = mapStrings (fun p s => f p (g p s)) v := by
  induction v using Value.induction generalizing f g with
  | array l ih =>
      simp only [mapStrings, mapStringsItems_eq, array.injEq]
      refine List.ext_getElem? fun i => ?_
      simp only [List.getElem?_map, List.getElem?_zipIdx, Option.map_map]
      cases hl : l[i]? with
      | none => rfl
      | some v => simp [ih v (List.mem_of_getElem? hl)]
  | object o ih =>
      simp only [mapStrings, mapStringsFields_eq, object.injEq, List.map_map]
      exact List.map_congr_left fun e he => by simp [ih e he]
  | _ => simp [mapStrings]

theorem mapStrings_congr {f g : Path → Str → Str} (v : Value)
    (h : ∀ q ∈ leaves v, f q.1 q.2 = g q.1 q.2) : mapStrings f v = mapStrings g v := by
  induction v using Value.induction generalizing f g with
  | string s => simpa [mapStrings, leaves] using h
  | array l ih =>
      simp only [leaves, leavesItems_eq, List.mem_flatMap, List.mem_map] at h
      simp only [mapStrings, mapStringsItems_eq, array.injEq]
      refine List.map_congr_left fun c hc => ih _ (List.fst_mem_of_mem_zipIdx hc) fun q hq => ?_
      exact h _ ⟨c, hc, q, hq, rfl⟩
  | object o ih =>
      simp only [leaves, leavesFields_eq, List.mem_flatMap, List.mem_map] at h
      simp only [mapStrings, mapStringsFields_eq, object.injEq]
      exact List.map_congr_left fun e he =>
        congrArg (Prod.mk e.1) (ih e he fun q hq => h _ ⟨e, he, q, hq, rfl⟩)
  | _ => rfl

theorem mapStrings_self (v : Value) : mapStrings (fun _ s => s) v = v := by
  induction v using Value.induction with
  | array l ih =>
      simp only [mapStrings, mapStringsItems_eq, array.injEq]
      refine List.ext_getElem? fun i => ?_
      simp only [List.getElem?_map, List.getElem?_zipIdx, Option.map_map]
      cases hl : l[i]? with
      | none => rfl
      | some v => simp [ih v (List.mem_of_getElem? hl)]
  | object o ih =>
      simp only [mapStrings, mapStringsFields_eq, object.injEq]
      conv_rhs => rw [← List.map_id o]
      exact List.map_congr_left fun e he => by simp [ih e he]
  | _ => rfl

end Value

/-! ## Canonical values -/

/-- The bits are those of a finite `f64`. -/
def isFiniteF64 (bits : UInt64) : Bool := (bits >>> 52) &&& 0x7FF ≠ 0x7FF

def Number.Canonical : Number → Prop
  | posInt _ => True
  | negInt n => n < 0
  | float bits => isFiniteF64 bits = true

/-- The keys of every object ascend, and every number has its one representation. -/
inductive Value.Canonical : Value → Prop where
  | null : Canonical .null
  | bool (b : Bool) : Canonical (.bool b)
  | number {n : Number} (hn : n.Canonical) : Canonical (.number n)
  | string (s : Str) : Canonical (.string s)
  | array {l : List Value} (hl : ∀ v ∈ l, Canonical v) : Canonical (.array l)
  | object {o : Object} (sorted : (o.map Prod.fst).Pairwise (· < ·))
      (ho : ∀ f ∈ o, Canonical f.2) : Canonical (.object o)

namespace Value

theorem field_eq_some_iff {o : Object} (ho : (o.map Prod.fst).Nodup) {k : Str} {v : Value} :
    field o k = some v ↔ (k, v) ∈ o := by
  unfold field
  constructor
  · intro h
    obtain ⟨⟨k', v'⟩, hf, rfl⟩ := Option.map_eq_some_iff.mp h
    have hk := List.find?_some hf
    simp only [decide_eq_true_eq] at hk
    subst hk
    exact List.mem_of_find?_eq_some hf
  · intro h
    rw [HashMap.find?_fst_of_mem ho h]; rfl

namespace Canonical

variable {v : Value}

theorem nodup_keys {o : Object} (h : Canonical (.object o)) : (o.map Prod.fst).Nodup := by
  cases h with
  | object sorted _ => exact sorted.imp fun h => ne_of_lt h

theorem mem_children (hv : Canonical v) {seg : PathSegment} {c : Value} :
    (seg, c) ∈ children v ↔ v.child? seg = some c := by
  cases v with
  | array l =>
      cases seg with
      | key k => simp [children, child?]
      | index i =>
          simp only [children, child?, List.mem_map, Prod.mk.injEq, PathSegment.index.injEq,
            Prod.exists, List.mk_mem_zipIdx_iff_getElem?]
          constructor
          · rintro ⟨a, b, h, rfl, rfl⟩; exact h
          · intro h; exact ⟨c, i, h, rfl, rfl⟩
  | object o =>
      cases seg with
      | key k =>
          simp only [children, child?, List.mem_map, Prod.mk.injEq, PathSegment.key.injEq,
            field_eq_some_iff hv.nodup_keys, Prod.exists]
          constructor
          · rintro ⟨a, b, h, rfl, rfl⟩; exact h
          · intro h; exact ⟨k, c, h, rfl, rfl⟩
      | index i => simp [children, child?]
  | _ => simp [children, child?]

theorem nodup_children (hv : Canonical v) : ((children v).map Prod.fst).Nodup := by
  cases v with
  | array l =>
      have h : ((children (.array l)).map Prod.fst) = (List.range l.length).map .index := by
        refine List.ext_getElem? fun i => ?_
        simp only [children, List.map_map, List.getElem?_map, List.getElem?_zipIdx]
        by_cases hi : i < l.length
        · simp [hi]
        · simp [Nat.not_lt.mp hi]
      rw [h]
      exact List.nodup_range.map fun _ _ h => by cases h; rfl
  | object o =>
      have h : ((children (.object o)).map Prod.fst) = (o.map Prod.fst).map .key := by
        simp [children, List.map_map]
      rw [h]
      exact hv.nodup_keys.map fun _ _ h => by cases h; rfl
  | _ => exact List.nodup_nil

theorem of_mem_children (hv : Canonical v) {c : PathSegment × Value} (hc : c ∈ children v) :
    Canonical c.2 := by
  cases hv with
  | array hl =>
      obtain ⟨d, hd, rfl⟩ := List.mem_map.mp hc
      exact hl _ (List.fst_mem_of_mem_zipIdx hd)
  | object _ ho =>
      obtain ⟨f, hf, rfl⟩ := List.mem_map.mp hc
      exact ho f hf
  | _ => cases hc

theorem of_child? (hv : Canonical v) {seg : PathSegment} {c : Value}
    (hc : v.child? seg = some c) : Canonical c := hv.of_mem_children (hv.mem_children.mpr hc)

/-- The string values are those found at the paths. -/
theorem mem_leaves (hv : Canonical v) {p : Path} {s : Str} :
    (p, s) ∈ leaves v ↔ v.get? p = some (.string s) := by
  induction p generalizing v with
  | nil =>
      rw [leaves_eq]
      cases v <;> simp [asStr, get?, eq_comm]
  | cons seg p ih =>
      rw [leaves_eq]
      simp only [get?, Option.bind_eq_some_iff, List.mem_append, List.mem_map, Prod.mk.injEq,
        reduceCtorEq, false_and, and_false, exists_false, false_or, List.mem_flatMap, Prod.exists,
        List.cons.injEq]
      constructor
      · rintro ⟨seg', c, hc, p', s', hp, ⟨rfl, rfl⟩, rfl⟩
        exact ⟨c, hv.mem_children.mp hc, (ih (hv.of_mem_children hc)).mp hp⟩
      · rintro ⟨c, hc, hp⟩
        exact ⟨seg, c, hv.mem_children.mpr hc, p, s, (ih (hv.of_child? hc)).mpr hp, ⟨rfl, rfl⟩, rfl⟩

/-- No path leads to two string values. -/
theorem nodup_leaves (hv : Canonical v) : ((leaves v).map Prod.fst).Nodup := by
  induction v using Value.childInduction with
  | h v ih =>
      have hbelow : ∀ c ∈ children v,
          ((leaves c.2).map fun p => (c.1 :: p.1, p.2)).map Prod.fst
            = ((leaves c.2).map Prod.fst).map (c.1 :: ·) := fun c _ => by simp [List.map_map]
      have hdisj : ((children v).flatMap fun c =>
          (leaves c.2).map fun p => (c.1 :: p.1, p.2)).map Prod.fst
            = (children v).flatMap fun c => ((leaves c.2).map Prod.fst).map (c.1 :: ·) := by
        rw [List.map_flatMap]
        exact List.flatMap_congr fun c hc => hbelow c hc
      rw [leaves_eq, List.map_append, hdisj]
      refine List.nodup_append.mpr ⟨?_, List.nodup_flatMap.mpr ⟨fun c hc => ?_, ?_⟩, ?_⟩
      · cases v.asStr <;> simp
      · exact (ih c hc (hv.of_mem_children hc)).map fun _ _ h => (List.cons.inj h).2
      · refine (List.pairwise_map.mp hv.nodup_children).imp fun hne => ?_
        simp only [Function.onFun, List.disjoint_left, List.mem_map]
        rintro _ ⟨p, _, rfl⟩ ⟨q, _, h⟩
        exact hne (List.cons.inj h).1.symm
      · simp only [List.mem_map, List.mem_flatMap]
        rintro _ ⟨_, ⟨s, _, rfl⟩, rfl⟩ _ ⟨c, _, p, _, rfl⟩ h
        cases h

theorem mapStrings {f : Path → Str → Str} (hv : Canonical v) : Canonical (mapStrings f v) := by
  induction hv generalizing f with
  | array _ ih =>
      refine .array fun w hw => ?_
      rw [mapStringsItems_eq] at hw
      obtain ⟨c, hc, rfl⟩ := List.mem_map.mp hw
      exact ih _ (List.fst_mem_of_mem_zipIdx hc)
  | object sorted _ ih =>
      rw [Value.mapStrings, mapStringsFields_eq]
      refine .object (by rwa [List.map_map]) fun e he => ?_
      obtain ⟨g, hg, rfl⟩ := List.mem_map.mp he
      exact ih g hg
  | null => exact .null
  | bool b => exact .bool b
  | number hn => exact .number hn
  | string s => exact .string _

/-- Writing a string over another one is a replacement at one path. -/
theorem set?_string (hv : Canonical v) {p : Path} {s r : Str} (hp : v.get? p = some (.string s)) :
    v.set? p (.string r)
      = some (Value.mapStrings (fun q t => if q = p then r else t) v) := by
  induction p generalizing v with
  | nil =>
      simp only [get?, Option.some.injEq] at hp
      subst hp
      simp [set?, Value.mapStrings]
  | cons seg p ih =>
      simp only [get?, Option.bind_eq_some_iff] at hp
      obtain ⟨c, hc, hp⟩ := hp
      simp only [set?, hc, Option.bind_some, ih (hv.of_child? hc) hp, Option.map_some,
        Option.some.injEq]
      -- the child under `seg` is rewritten, and the others are as they were
      have same : ∀ seg' (w : Value), seg' ≠ seg →
          Value.mapStrings (fun q t => if seg' :: q = seg :: p then r else t) w = w :=
        fun seg' w hne => by
          refine Eq.trans (mapStrings_congr w fun q _ => ?_) (mapStrings_self w)
          rw [if_neg fun h => hne (List.cons.inj h).1]
      cases v with
      | array l =>
          cases seg with
          | key k => cases hc
          | index i =>
              simp only [putChild, Value.mapStrings, array.injEq]
              refine List.ext_getElem? fun j => ?_
              rw [getElem?_mapStringsItems, List.getElem?_set]
              by_cases hij : i = j
              · subst hij
                have hc' : l[i]? = some c := hc
                have hlt : i < l.length := (List.getElem?_eq_some_iff.mp hc').1
                rw [if_pos rfl, if_pos hlt, hc']
                simp
              · rw [if_neg hij]
                cases hj : l[j]? with
                | none => rfl
                | some w =>
                    rw [Option.map_some, same _ w fun h => hij (PathSegment.index.inj h).symm]
      | object o =>
          cases seg with
          | index i => cases hc
          | key k =>
              simp only [putChild, Value.mapStrings, mapStringsFields_eq, object.injEq]
              refine List.map_congr_left fun e he => ?_
              by_cases hk : e.1 = k
              · have he2 : e.2 = c := by
                  have := (field_eq_some_iff hv.nodup_keys).mpr (show (e.1, e.2) ∈ o from he)
                  rw [hk] at this
                  exact Option.some.inj (this.symm.trans hc)
                simp [hk, he2]
              · rw [if_neg hk, same _ e.2 fun h => hk (PathSegment.key.inj h)]
      | _ => cases seg <;> cases hc

end Canonical

end Value

/-! ## Floats -/

/-- The same number, a float replaced by its bits. -/
def Number.mapFloat (f : UInt64 → UInt64) : Number → Number
  | posInt n => posInt n
  | negInt n => negInt n
  | float bits => float (f bits)

namespace Value

mutual

/-- The same tree with every float replaced, by its bits. -/
def mapFloats (f : UInt64 → UInt64) : Value → Value
  | number n => number (n.mapFloat f)
  | array l => array (mapFloatsItems f l)
  | object o => object (mapFloatsFields f o)
  | null => null
  | bool b => bool b
  | string s => string s

def mapFloatsItems (f : UInt64 → UInt64) : List Value → List Value
  | [] => []
  | v :: l => mapFloats f v :: mapFloatsItems f l

def mapFloatsFields (f : UInt64 → UInt64) : Object → Object
  | [] => []
  | (k, v) :: o => (k, mapFloats f v) :: mapFloatsFields f o

end

variable (f : UInt64 → UInt64)

theorem mapFloatsItems_eq (l : List Value) : mapFloatsItems f l = l.map (mapFloats f) := by
  induction l with
  | nil => rfl
  | cons v l ih => simp [mapFloatsItems, ih]

theorem mapFloatsFields_eq (o : Object) :
    mapFloatsFields f o = o.map fun e => (e.1, mapFloats f e.2) := by
  induction o with
  | nil => rfl
  | cons e o ih => obtain ⟨k, v⟩ := e; simp [mapFloatsFields, ih]

@[simp] theorem leaves_mapFloats (v : Value) : leaves (mapFloats f v) = leaves v := by
  induction v using Value.induction with
  | array l ih =>
      have hzip : (l.map (mapFloats f)).zipIdx = l.zipIdx.map fun c => (mapFloats f c.1, c.2) :=
        List.zipIdx_map
      simp only [mapFloats, leaves, leavesItems_eq, mapFloatsItems_eq, hzip, List.flatMap_map]
      exact List.flatMap_congr fun c hc => by rw [ih _ (List.fst_mem_of_mem_zipIdx hc)]
  | object o ih =>
      simp only [mapFloats, leaves, leavesFields_eq, mapFloatsFields_eq, List.flatMap_map]
      exact List.flatMap_congr fun e he => by rw [ih e he]
  | _ => rfl

@[simp] theorem keys_mapFloats (v : Value) : keys (mapFloats f v) = keys v := by
  induction v using Value.induction with
  | array l ih =>
      simp only [mapFloats, keys]
      induction l with
      | nil => rfl
      | cons v l ihl =>
          obtain ⟨hv, hl⟩ := List.forall_mem_cons.mp ih
          simp only [mapFloatsItems, keysItems, hv, ihl hl]
  | object o ih =>
      simp only [mapFloats, keys]
      induction o with
      | nil => rfl
      | cons e o iho =>
          obtain ⟨k, v⟩ := e
          obtain ⟨hv, ho⟩ := List.forall_mem_cons.mp ih
          simp only [mapFloatsFields, keysFields, hv, iho ho]
  | _ => rfl

theorem child?_mapFloats (v : Value) (seg : PathSegment) :
    (mapFloats f v).child? seg = (v.child? seg).map (mapFloats f) := by
  cases v with
  | array l => cases seg <;> simp [mapFloats, child?, mapFloatsItems_eq]
  | object o =>
      cases seg with
      | index i => rfl
      | key k =>
          simp only [mapFloats, child?, field, mapFloatsFields_eq, List.find?_map, Option.map_map]
          rfl
  | _ => rfl

/-- Strings and floats are replaced apart. -/
theorem mapStrings_mapFloats (g : Path → Str → Str) (v : Value) :
    mapStrings g (mapFloats f v) = mapFloats f (mapStrings g v) := by
  induction v using Value.induction generalizing g with
  | array l ih =>
      simp only [mapFloats, mapStrings, mapStringsItems_eq, mapFloatsItems_eq, array.injEq,
        List.zipIdx_map, List.map_map]
      exact List.map_congr_left fun c hc => ih _ (List.fst_mem_of_mem_zipIdx hc) _
  | object o ih =>
      simp only [mapFloats, mapStrings, mapStringsFields_eq, mapFloatsFields_eq, object.injEq,
        List.map_map]
      exact List.map_congr_left fun e he => congrArg (Prod.mk e.1) (ih e he _)
  | _ => rfl

theorem mapFloats_self (v : Value) : mapFloats id v = v := by
  induction v using Value.induction with
  | number n => cases n <;> rfl
  | array l ih =>
      simp only [mapFloats, mapFloatsItems_eq, array.injEq]
      exact (List.map_congr_left ih).trans (List.map_id l)
  | object o ih =>
      simp only [mapFloats, mapFloatsFields_eq, object.injEq]
      exact (List.map_congr_left fun e he => congrArg (Prod.mk e.1) (ih e he)).trans (List.map_id o)
  | _ => rfl

theorem Canonical.mapFloats {f : UInt64 → UInt64}
    (hf : ∀ bits, isFiniteF64 bits = true → isFiniteF64 (f bits) = true) {v : Value}
    (hv : Canonical v) : Canonical (mapFloats f v) := by
  induction hv with
  | null => exact .null
  | bool b => exact .bool b
  | string s => exact .string s
  | @number n hn =>
      refine .number ?_
      cases n with
      | posInt n => trivial
      | negInt n => exact hn
      | float bits => exact hf bits hn
  | array _ ih =>
      refine .array fun w hw => ?_
      rw [mapFloatsItems_eq] at hw
      obtain ⟨c, hc, rfl⟩ := List.mem_map.mp hw
      exact ih c hc
  | object sorted _ ih =>
      rw [Value.mapFloats, mapFloatsFields_eq]
      refine .object (by rwa [List.map_map]) fun e he => ?_
      obtain ⟨g, hg, rfl⟩ := List.mem_map.mp he
      exact ih g hg

end Value

/-! ## Documents -/

/-- A parsed document: the values as the parser reports them, an object with all its fields in the
order of the text, repeated keys included. -/
inductive Raw where
  | unit
  | bool (b : Bool)
  | i64 (n : Int64)
  | u64 (n : UInt64)
  | f64 (bits : UInt64)
  | str (s : Str)
  | seq (items : List Raw)
  | map (fields : List (Str × Raw))

@[elab_as_elim]
theorem Raw.induction {P : Raw → Prop} (unit : P .unit) (bool : ∀ b, P (.bool b))
    (i64 : ∀ n, P (.i64 n)) (u64 : ∀ n, P (.u64 n)) (f64 : ∀ b, P (.f64 b)) (str : ∀ s, P (.str s))
    (seq : ∀ l, (∀ r ∈ l, P r) → P (.seq l)) (map : ∀ o, (∀ f ∈ o, P f.2) → P (.map o))
    (r : Raw) : P r :=
  @Raw.rec P (fun l => ∀ r ∈ l, P r) (fun o => ∀ f ∈ o, P f.2) (fun f => P f.2) unit bool i64 u64
    f64 str seq map (by simp) (fun _ _ hr hl => List.forall_mem_cons.mpr ⟨hr, hl⟩) (by simp)
    (fun _ _ hf ho => List.forall_mem_cons.mpr ⟨hf, ho⟩) (fun _ _ hr => hr) r

def Number.document : Number → Raw
  | posInt n => .u64 n
  | negInt n => .i64 n
  | float bits => .f64 bits

namespace Value

mutual

/-- The document that a value is written as. -/
def document : Value → Raw
  | null => .unit
  | bool b => .bool b
  | number n => n.document
  | string s => .str s
  | array l => .seq (documentItems l)
  | object o => .map (documentFields o)

def documentItems : List Value → List Raw
  | [] => []
  | v :: l => document v :: documentItems l

def documentFields : Object → List (Str × Raw)
  | [] => []
  | (k, v) :: o => (k, document v) :: documentFields o

end

end Value

/-- `serde_json::from_slice` and `serde_json::to_vec`. What is written for a tree parses back to it but
for its floats: without the feature `float_roundtrip` the digits that are written for a float may be
read as a float next to it. (A tree that was read is within the depth that is read.) -/
structure SerdeJson where
  fromSlice : List UInt8 → Option Raw
  toVec : Value → Option (List UInt8)
  /-- The float that is read for the digits of a float. -/
  reread : UInt64 → UInt64
  finite : ∀ bits, isFiniteF64 bits = true → isFiniteF64 (reread bits) = true
  roundTrip : ∀ v b, v.Canonical → toVec v = some b →
    fromSlice b = some (v.mapFloats reread).document

/-- The tree that is read for what is written for a tree. -/
def SerdeJson.reparse (json : SerdeJson) (v : Value) : Value := v.mapFloats json.reread

/-- The numbers of a tree survive being written and read. -/
def SerdeJson.Keeps (json : SerdeJson) (v : Value) : Prop := json.reparse v = v

theorem SerdeJson.canonical_reparse {json : SerdeJson} {v : Value} (hv : v.Canonical) :
    (json.reparse v).Canonical := hv.mapFloats json.finite

@[simp] theorem SerdeJson.leaves_reparse (json : SerdeJson) (v : Value) :
    (json.reparse v).leaves = v.leaves := Value.leaves_mapFloats _ v

@[simp] theorem SerdeJson.keys_reparse (json : SerdeJson) (v : Value) :
    (json.reparse v).keys = v.keys := Value.keys_mapFloats _ v

theorem SerdeJson.mapStrings_reparse (json : SerdeJson) (g : Path → Str → Str) (v : Value) :
    Value.mapStrings g (json.reparse v) = json.reparse (Value.mapStrings g v) :=
  Value.mapStrings_mapFloats _ g v

/-- The parser on one finite list of documents and the writer on another one, which is read up to its
floats. -/
def SerdeJson.ofTables (reads writes : List (List UInt8 × Value)) (reread : UInt64 → UInt64)
    (finite : ∀ bits, isFiniteF64 bits = true → isFiniteF64 (reread bits) = true)
    (h : ∀ d ∈ writes, (reads.find? (·.1 = d.1)).map Prod.snd = some (d.2.mapFloats reread)) :
    SerdeJson where
  fromSlice b := (reads.find? (·.1 = b)).map fun d => d.2.document
  toVec v := (writes.find? (·.2 = v)).map Prod.fst
  reread := reread
  finite := finite
  roundTrip v b _ hb := by
    obtain ⟨⟨b', v'⟩, hf, rfl⟩ := Option.map_eq_some_iff.mp hb
    have hv := List.find?_some hf
    simp only [decide_eq_true_eq] at hv
    subst hv
    obtain ⟨d, hd, hread⟩ := Option.map_eq_some_iff.mp (h _ (List.mem_of_find?_eq_some hf))
    rw [hd, Option.map_some, hread]

/-- The parser and the writer on a finite list of documents, each with its bytes. -/
def SerdeJson.ofTable (table : List (List UInt8 × Value)) (ht : (table.map Prod.fst).Nodup) :
    SerdeJson :=
  .ofTables table table id (fun _ h => h) fun d hd => by
    rw [HashMap.find?_fst_of_mem ht hd, Value.mapFloats_self]; rfl

/-- The bits of a float that is written as `-0.9676380963621543`. -/
def demoFloat : UInt64 := 0xBFEEF6E42B47A71C

/-- These digits are read as the float next to it, which is written as `-0.9676380963621544`. -/
def demoReread (bits : UInt64) : UInt64 := if bits = demoFloat then demoFloat + 1 else bits

theorem finite_demoReread (bits : UInt64) (h : isFiniteF64 bits = true) :
    isFiniteF64 (demoReread bits) = true := by
  unfold demoReread
  split
  · decide
  · exact h

/-! ## Deserialization -/

/-- `BTreeMap::insert`: a key that is there gets the new value. -/
def Value.insertField (o : Object) (k : Str) (v : Value) : Object :=
  if hasField o k then o.map fun f => if f.1 = k then (k, v) else f
  else o.orderedInsert (fun a b => a.1 ≤ b.1) (k, v)

mutual

/-- The `Value` of a document; of the fields with one key the last counts. -/
def Raw.value : Raw → Value
  | .unit => .null
  | .bool b => .bool b
  | .i64 n => .number (if n < 0 then .negInt n else .posInt n.toUInt64)
  | .u64 n => .number (.posInt n)
  | .f64 bits => if isFiniteF64 bits then .number (.float bits) else .null
  | .str s => .string s
  | .seq items => .array (Raw.values items)
  | .map fields => .object (Raw.object [] fields)

def Raw.values : List Raw → List Value
  | [] => []
  | raw :: rest => raw.value :: Raw.values rest

def Raw.object : Object → List (Str × Raw) → Object
  | object, [] => object
  | object, (key, raw) :: rest => Raw.object (Value.insertField object key raw.value) rest

end

/-- `serde_json::from_str::<Value>`. -/
def SerdeJson.fromStr (json : SerdeJson) (s : List UInt8) : Option Value :=
  (json.fromSlice s).map Raw.value

namespace Value

/-- A new key keeps the keys ascending. -/
theorem sorted_insert {o : Object} {k : Str} {v : Value} (ho : (o.map Prod.fst).Pairwise (· < ·))
    (hk : k ∉ o.map Prod.fst) :
    ((o.orderedInsert (fun a b => a.1 ≤ b.1) (k, v)).map Prod.fst).Pairwise (· < ·) := by
  induction o with
  | nil => simp
  | cons f o ih =>
      simp only [List.map_cons, List.pairwise_cons, List.mem_cons, not_or] at ho hk
      simp only [List.orderedInsert_cons]
      split
      · rename_i hle
        have hlt : k < f.1 := lt_of_le_of_ne hle hk.1
        simp only [List.map_cons, List.pairwise_cons]
        refine ⟨?_, ho.1, ho.2⟩
        intro j hj
        rcases List.mem_cons.mp hj with rfl | hj
        · exact hlt
        · exact hlt.trans (ho.1 j hj)
      · rename_i hle
        simp only [List.map_cons, List.pairwise_cons]
        refine ⟨?_, ih ho.2 hk.2⟩
        intro j hj
        obtain ⟨g, hg, rfl⟩ := List.mem_map.mp hj
        rcases (List.mem_orderedInsert _).mp hg with rfl | hg
        · exact lt_of_not_ge hle
        · exact ho.1 _ (List.mem_map_of_mem hg)

/-- A field with a greater key goes to the end. -/
theorem orderedInsert_last {o : Object} {f : Str × Value} (h : ∀ g ∈ o, g.1 < f.1) :
    o.orderedInsert (fun a b => a.1 ≤ b.1) f = o ++ [f] := by
  induction o with
  | nil => rfl
  | cons g o ih =>
      obtain ⟨hg, ho⟩ := List.forall_mem_cons.mp h
      rw [List.orderedInsert, if_neg (not_le_of_gt hg), ih ho, List.cons_append]

/-- Inserting keeps the keys ascending and the values canonical. -/
theorem canonical_insertField {o : Object} {k : Str} {v : Value} (ho : Canonical (.object o))
    (hv : Canonical v) : Canonical (.object (insertField o k v)) := by
  cases ho with
  | object sorted hall =>
      unfold insertField
      split
      · refine .object ?_ fun f hf => ?_
        · have hkeys : (o.map fun f => if f.1 = k then (k, v) else f).map Prod.fst
              = o.map Prod.fst := by
            rw [List.map_map]
            refine List.map_congr_left fun f _ => ?_
            by_cases hk : f.1 = k
            · simp [hk]
            · simp [hk]
          rwa [hkeys]
        · obtain ⟨g, hg, rfl⟩ := List.mem_map.mp hf
          split
          · exact hv
          · exact hall g hg
      · rename_i hnot
        have hk : k ∉ o.map Prod.fst := by
          intro hk
          obtain ⟨f, hf, rfl⟩ := List.mem_map.mp hk
          have hfield := (field_eq_some_iff (Canonical.nodup_keys (.object sorted hall))).mpr hf
          exact hnot (by rw [hasField, hfield]; rfl)
        refine .object (sorted_insert sorted hk) fun f hf => ?_
        rcases (List.mem_orderedInsert _).mp hf with rfl | hf
        · exact hv
        · exact hall f hf

end Value

open Value in
theorem Raw.canonical_object {l : List (Str × Raw)} (ih : ∀ f ∈ l, f.2.value.Canonical) {o : Object}
    (ho : Canonical (.object o)) : Canonical (.object (Raw.object o l)) := by
  induction l generalizing o with
  | nil => exact ho
  | cons f l ihl =>
      obtain ⟨hf, hl⟩ := List.forall_mem_cons.mp ih
      exact ihl hl (canonical_insertField ho hf)

theorem Raw.canonical_values {l : List Raw} (ih : ∀ r ∈ l, r.value.Canonical) :
    ∀ v ∈ Raw.values l, v.Canonical := by
  induction l with
  | nil => intro v hv; cases hv
  | cons r l ihl =>
      obtain ⟨hr, hl⟩ := List.forall_mem_cons.mp ih
      exact List.forall_mem_cons.mpr ⟨hr, ihl hl⟩

theorem Raw.canonical_value (raw : Raw) : raw.value.Canonical := by
  induction raw using Raw.induction with
  | unit => exact .null
  | bool b => exact .bool b
  | i64 n =>
      refine .number ?_
      split
      · assumption
      · trivial
  | u64 n => exact .number trivial
  | f64 bits =>
      simp only [Raw.value]
      split
      · exact .number ‹_›
      · exact .null
  | str s => exact .string s
  | seq l ih => exact .array (Raw.canonical_values ih)
  | map o ih => exact Raw.canonical_object ih (.object .nil (by simp))

namespace Value

theorem values_documentItems {l : List Value} (ih : ∀ v ∈ l, v.document.value = v) :
    Raw.values (documentItems l) = l := by
  induction l with
  | nil => rfl
  | cons v l ihl =>
      obtain ⟨hv, hl⟩ := List.forall_mem_cons.mp ih
      simp only [documentItems, Raw.values, hv, ihl hl]

theorem object_documentFields {l o : Object} (ih : ∀ f ∈ l, f.2.document.value = f.2)
    (sorted : ((o ++ l).map Prod.fst).Pairwise (· < ·)) :
    Raw.object o (documentFields l) = o ++ l := by
  induction l generalizing o with
  | nil => simp [documentFields, Raw.object]
  | cons f l ihl =>
      obtain ⟨k, v⟩ := f
      obtain ⟨hv, hl⟩ := List.forall_mem_cons.mp ih
      have hlt : ∀ g ∈ o, g.1 < k := fun g hg => by
        rw [List.map_append] at sorted
        exact (List.pairwise_append.mp sorted).2.2 g.1 (List.mem_map_of_mem hg) k (by simp)
      have hfresh : hasField o k = false := by
        rw [hasField, field, Option.isSome_map, List.find?_eq_none.mpr]
        · rfl
        · intro g hg
          simpa using ne_of_lt (hlt g hg)
      have hins : insertField o k v = o ++ [(k, v)] := by
        rw [insertField, hfresh]
        exact @orderedInsert_last o (k, v) hlt
      simp only [documentFields, Raw.object, hv, hins]
      rw [ihl hl, List.append_assoc, List.singleton_append]
      rwa [List.append_assoc, List.singleton_append]

theorem value_document {v : Value} (hv : v.Canonical) : v.document.value = v := by
  induction hv with
  | null => rfl
  | bool b => rfl
  | string s => rfl
  | @number n hn =>
      cases n with
      | posInt n => rfl
      | negInt n => simp only [document, Number.document, Raw.value, if_pos (show n < 0 from hn)]
      | float bits =>
          simp only [document, Number.document, Raw.value]
          rw [if_pos (show isFiniteF64 bits = true from hn)]
  | array _ ih => simp only [document, Raw.value, values_documentItems ih]
  | object sorted _ ih =>
      simp only [document, Raw.value]
      rw [object_documentFields ih (by simpa using sorted)]
      rfl

end Value

theorem SerdeJson.canonical_fromStr {json : SerdeJson} {b : List UInt8} {v : Value}
    (h : json.fromStr b = some v) : v.Canonical := by
  obtain ⟨raw, _, rfl⟩ := Option.map_eq_some_iff.mp h
  exact raw.canonical_value

/-- What is written reads back as the value, up to its floats. -/
theorem SerdeJson.fromStr_toVec {json : SerdeJson} {v : Value} (hv : v.Canonical) {b : List UInt8}
    (h : json.toVec v = some b) : json.fromStr b = some (json.reparse v) := by
  rw [SerdeJson.fromStr, json.roundTrip v b hv h, Option.map_some,
    Value.value_document (hv.mapFloats json.finite), SerdeJson.reparse]

/-- What `serde_json` writes is text without control characters, an object between braces. -/
structure SerdeJson.Compact (json : SerdeJson) : Prop where
  text : ∀ v b, json.toVec v = some b → ∃ s, bytes s = b
  control : ∀ v b, json.toVec v = some b → ∀ x ∈ b, 0x20 ≤ x
  object : ∀ o b, json.toVec (.object o) = some b → b.head? = some 0x7B

theorem SerdeJson.compact_ofTable {table : List (List UInt8 × Value)}
    {ht : (table.map Prod.fst).Nodup} (htext : ∀ d ∈ table, ∃ s, bytes s = d.1)
    (hcontrol : ∀ d ∈ table, ∀ x ∈ d.1, 0x20 ≤ x) (hobject : ∀ d ∈ table, d.1.head? = some 0x7B) :
    (SerdeJson.ofTable table ht).Compact := by
  have hmem : ∀ v b, (SerdeJson.ofTable table ht).toVec v = some b → ∃ d ∈ table, d.1 = b := by
    intro v b h
    obtain ⟨d, hd, rfl⟩ := Option.map_eq_some_iff.mp h
    exact ⟨d, List.mem_of_find?_eq_some hd, rfl⟩
  constructor
  · intro v b h
    obtain ⟨d, hd, rfl⟩ := hmem v b h
    exact htext d hd
  · intro v b h
    obtain ⟨d, hd, rfl⟩ := hmem v b h
    exact hcontrol d hd
  · intro o b h
    obtain ⟨d, hd, rfl⟩ := hmem _ b h
    exact hobject d hd

end AgentVeil.Rust
