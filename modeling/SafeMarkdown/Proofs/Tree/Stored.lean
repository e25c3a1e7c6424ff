import SafeMarkdown.Proofs.Json.Alike
import SafeMarkdown.Proofs.Json.Delimited
import SafeMarkdown.Proofs.Tree.Walk
import SafeMarkdown.Tree.Codec

/-!
# Stored trees

A tree whose attributes and data are values of JSON is stored as a value of JSON. Its object has a
field for each part that is not the default and for no other, and from the sorted form of the object
the tree is read back, but for the order of fields.

To be the same tree but for the order of fields is an equivalence. The objects of two such trees are
the same in this sense too, and from the sorted object of a tree the tree is read back; so the
canonical texts of trees are equal exactly when the trees are the same but for the order of fields.
-/

namespace SafeMarkdown

open Value

theorem Checked.field_cons {α : Type} (fs : Fields) (n name : String) (v : Value) (absent : α)
    (read : Value → α) :
    Checked.field ((n, v) :: fs) name absent read =
      if name = n then read v else Checked.field fs name absent read := by
  rw [field, Fields.get?_cons]
  by_cases h : name = n
  · rw [if_pos h, if_pos h]
  · rw [if_neg h, if_neg h]
    rfl

namespace Node

/-- A node that holds values of JSON only. -/
structure IsJson (n : Node) : Prop where
  attrs : n.attrs.IsJson
  data : n.data.IsJson

mutual

/-- The same tree, but for the order of fields. -/
inductive Alike : Node → Node → Prop
  | mk {kind : NodeKind} {tag value : Option String} {attrs attrs' data data' : Fields}
      {children children' : List Node} (hattrs : attrs.Alike attrs')
      (hchildren : AllAlike children children') (hdata : data.Alike data') :
      Alike ⟨kind, tag, attrs, children, value, data⟩ ⟨kind, tag, attrs', children', value, data'⟩

inductive AllAlike : List Node → List Node → Prop
  | nil : AllAlike [] []
  | cons {n m : Node} {ns ms : List Node} (h : Alike n m) (hrest : AllAlike ns ms) :
      AllAlike (n :: ns) (m :: ms)

end

/-- An object has a field for each part of a node that is not the default, and no such field for any
other. -/
structure HasParts (n : Node) (attrs data : Fields) (items : List Value) (fields : Fields) :
    Prop where
  kind : fields.get? "type" = some (.str n.kind.name)
  tag : fields.get? "tag" = n.tag.map .str
  attrs : fields.get? "attrs" = if n.attrs.isEmpty then none else some (.obj attrs)
  children : fields.get? "children" = if n.children.isEmpty then none else some (.arr items)
  value : fields.get? "value" = n.value.map .str
  data : fields.get? "data" = if n.data.isEmpty then none else some (.obj data)

mutual

/-- A value is the object of a node, without the parts that are the default at any level. -/
inductive IsWritten : Node → Value → Prop
  | mk {n : Node} {attrs data fields : Fields} {items : List Value}
      (h : n.HasParts attrs data items fields) (hitems : AreWritten n.children items) :
      IsWritten n (.obj fields)

inductive AreWritten : List Node → List Value → Prop
  | nil : AreWritten [] []
  | cons {n : Node} {v : Value} {ns : List Node} {vs : List Value} (h : IsWritten n v)
      (hrest : AreWritten ns vs) : AreWritten (n :: ns) (v :: vs)

end

section Storable

mutual

theorem storable_of_isPlain : (v : Value) → v.IsPlain Double.IsFinite → storable v = v
  | .arr items, h => by
      rw [IsPlain] at h
      rw [storable, storableItems_of_arePlain items h]
  | .obj fields, h => by
      rw [IsPlain] at h
      rw [storable, storableFields_of_arePlain fields h.2]
  | .float x, h => by
      obtain ⟨negative, rank, rfl⟩ := h
      rfl
  | .null, _ | .bool _, _ | .int _, _ | .str _, _ | .bytes _, _ | .date _, _ | .moment _, _ => rfl

theorem storableItems_of_arePlain : (vs : List Value) → ArePlain Double.IsFinite vs →
    storableItems vs = vs
  | [], _ => rfl
  | v :: rest, h => by
      rw [storableItems, storable_of_isPlain v h.1, storableItems_of_arePlain rest h.2]

theorem storableFields_of_arePlain : (fs : Fields) → FieldsArePlain Double.IsFinite fs →
    storableFields fs = fs
  | [], _ => rfl
  | (name, v) :: rest, h => by
      rw [storableFields, storable_of_isPlain v h.1, storableFields_of_arePlain rest h.2]

end

end Storable

section Fields

variable {isDefault : Bool} {name : String} {v : Value}

theorem get?_append (fs gs : Fields) (name : String) :
    Fields.get? (fs ++ gs) name = (fs.get? name).or (gs.get? name) :=
  List.lookup_append

theorem get?_fieldUnless (isDefault : Bool) (name other : String) (v : Value) :
    Fields.get? (fieldUnless isDefault name v) other =
      if other = name ∧ isDefault = false then some v else none := by
  cases isDefault with
  | true => simp [fieldUnless, Fields.get?]
  | false =>
      rw [fieldUnless, if_neg (by simp), Fields.get?_cons]
      simp [Fields.get?]

theorem map_fst_fieldUnless_sublist (isDefault : Bool) (name : String) (v : Value) :
    ((fieldUnless isDefault name v).map Prod.fst).Sublist [name] := by
  cases isDefault with
  | true => exact List.nil_sublist _
  | false => exact .refl _

theorem forall_mem_fieldUnless {P : Value → Prop} (h : isDefault = false → P v) :
    ∀ f ∈ fieldUnless isDefault name v, P f.2 := by
  cases isDefault with
  | true => exact List.forall_mem_nil _
  | false => exact List.forall_mem_singleton.mpr (h rfl)

/-- The fields of the object of a node. -/
def storedFields (n : Node) : Fields :=
  [("type", .str n.kind.name)] ++
    fieldUnless n.tag.isNone "tag" (.str (n.tag.getD "")) ++
    fieldUnless n.attrs.isEmpty "attrs" (.obj (storableFields n.attrs)) ++
    fieldUnless n.children.isEmpty "children" (.arr (toValue.toValues n.children)) ++
    fieldUnless n.value.isNone "value" (.str (n.value.getD "")) ++
    fieldUnless n.data.isEmpty "data" (.obj (storableFields n.data))

theorem toValue_eq (n : Node) : n.toValue = .obj n.storedFields := by
  obtain ⟨kind, tag, attrs, children, value, data⟩ := n
  rw [toValue, storedFields]

theorem nodup_storedFields (n : Node) : (n.storedFields.map Prod.fst).Nodup := by
  have hnames : (n.storedFields.map Prod.fst).Sublist
      (["type"] ++ ["tag"] ++ ["attrs"] ++ ["children"] ++ ["value"] ++ ["data"]) := by
    unfold storedFields
    simp only [List.map_append]
    exact (((((List.Sublist.refl _).append (map_fst_fieldUnless_sublist _ _ _)).append
      (map_fst_fieldUnless_sublist _ _ _)).append (map_fst_fieldUnless_sublist _ _ _)).append
      (map_fst_fieldUnless_sublist _ _ _)).append (map_fst_fieldUnless_sublist _ _ _)
  exact List.Nodup.sublist hnames (by decide)

/-- What holds of texts and of the parts of a node holds of all fields of its object. -/
theorem forall_mem_storedFields {P : Value → Prop} {n : Node} (hstr : ∀ s, P (.str s))
    (hattrs : P (.obj (storableFields n.attrs))) (hdata : P (.obj (storableFields n.data)))
    (hchildren : P (.arr (toValue.toValues n.children))) : ∀ f ∈ n.storedFields, P f.2 := by
  rw [storedFields]
  simp only [List.forall_mem_append]
  refine ⟨⟨⟨⟨⟨List.forall_mem_singleton.mpr (hstr _), ?_⟩, ?_⟩, ?_⟩, ?_⟩, ?_⟩
  · exact forall_mem_fieldUnless fun _ ↦ hstr _
  · exact forall_mem_fieldUnless fun _ ↦ hattrs
  · exact forall_mem_fieldUnless fun _ ↦ hchildren
  · exact forall_mem_fieldUnless fun _ ↦ hstr _
  · exact forall_mem_fieldUnless fun _ ↦ hdata

theorem hasParts_storedFields (n : Node) :
    n.HasParts (storableFields n.attrs) (storableFields n.data) (toValue.toValues n.children)
      n.storedFields := by
  have hget (name : String) :
      n.storedFields.get? name =
        ((((((if name = "type" then some (.str n.kind.name) else none).or
          (if name = "tag" ∧ n.tag.isNone = false then some (.str (n.tag.getD "")) else none)).or
          (if name = "attrs" ∧ n.attrs.isEmpty = false then
            some (.obj (storableFields n.attrs)) else none)).or
          (if name = "children" ∧ n.children.isEmpty = false then
            some (.arr (toValue.toValues n.children)) else none)).or
          (if name = "value" ∧ n.value.isNone = false then
            some (.str (n.value.getD "")) else none)).or
          (if name = "data" ∧ n.data.isEmpty = false then
            some (.obj (storableFields n.data)) else none)) := by
    rw [storedFields]
    simp only [get?_append, get?_fieldUnless, Fields.get?_cons]
    rfl
  constructor
  · simp [hget]
  · cases htag : n.tag <;> simp [hget, htag]
  · cases hattrs : n.attrs.isEmpty <;> simp [hget, hattrs]
  · cases hchildren : n.children.isEmpty <;> simp [hget, hchildren]
  · cases hvalue : n.value <;> simp [hget, hvalue]
  · cases hdata : n.data.isEmpty <;> simp [hget, hdata]

/-- Sorting an object sorts the parts of its node. -/
theorem HasParts.sorted {n : Node} {attrs data fields : Fields} {items : List Value}
    (h : n.HasParts attrs data items fields) (hnodup : (fields.map Prod.fst).Nodup) :
    n.HasParts (Json.sortedFields attrs) (Json.sortedFields data) (Json.sortedItems items)
      (Json.sortedFields fields) where
  kind := by
    rw [Json.get?_sortedFields hnodup, h.kind]
    rfl
  tag := by
    rw [Json.get?_sortedFields hnodup, h.tag]
    cases n.tag <;> rfl
  attrs := by
    rw [Json.get?_sortedFields hnodup, h.attrs]
    cases n.attrs.isEmpty <;> simp [Json.sorted]
  children := by
    rw [Json.get?_sortedFields hnodup, h.children]
    cases n.children.isEmpty <;> simp [Json.sorted]
  value := by
    rw [Json.get?_sortedFields hnodup, h.value]
    cases n.value <;> rfl
  data := by
    rw [Json.get?_sortedFields hnodup, h.data]
    cases n.data.isEmpty <;> simp [Json.sorted]

end Fields

section Reading

/-- The parts of a node are found under their names. -/
theorem draft_eq (fs : Fields) :
    draft fs =
      ⟨Checked.field fs "type" (.error [("type", "missing")]) readKind,
        Checked.field fs "tag" (.ok none) (readText "tag"),
        Checked.field fs "attrs" (.ok []) (readFields "attrs"),
        Checked.field fs "children" (.ok []) ofChildren,
        Checked.field fs "value" (.ok none) (readText "value"),
        Checked.field fs "data" (.ok []) (readFields "data")⟩ := by
  induction fs with
  | nil => rw [draft]; rfl
  | cons f fs ih =>
      obtain ⟨name, v⟩ := f
      rw [draft, ih]
      simp only [Checked.field_cons, beq_iff_eq]
      by_cases htype : name = "type"
      · simp [htype]
      by_cases htag : name = "tag"
      · simp [htag]
      by_cases hattrs : name = "attrs"
      · simp [hattrs]
      by_cases hchildren : name = "children"
      · simp [hchildren]
      by_cases hvalue : name = "value"
      · simp [hvalue]
      by_cases hdata : name = "data"
      · simp [hdata]
      simp [htype, htag, hattrs, hchildren, hvalue, hdata, eq_comm (b := name)]

theorem ofName?_name (k : NodeKind) : NodeKind.ofName? k.name = some k := by
  cases k <;> decide

theorem eq_nil_of_alike {fs gs : Fields} (h : fs.Alike gs) (hfs : fs.isEmpty = true) : gs = [] := by
  obtain ⟨hs, hhs, hperm⟩ := h
  rw [List.isEmpty_iff.mp hfs] at hhs
  cases hhs
  exact List.nil_perm.mp hperm

theorem AllAlike.eq_nil {ns ms : List Node} (h : AllAlike ns ms) (hns : ns.isEmpty = true) :
    ms = [] := by
  rw [List.isEmpty_iff.mp hns] at h
  cases h
  rfl

/-- Fields that are left out when there are none are read back. -/
theorem field_readFields {fields fs gs : Fields} {place : String}
    (hget : fields.get? place = if fs.isEmpty then none else some (.obj gs)) (h : fs.Alike gs) :
    Checked.field fields place (.ok []) (readFields place) = .ok gs := by
  rw [Checked.field, hget]
  cases hfs : fs.isEmpty with
  | true => rw [if_pos rfl, eq_nil_of_alike h hfs]
  | false => rfl

/-- A text that is left out when there is none is read back. -/
theorem field_readText {fields : Fields} {text : Option String} {place : String}
    (hget : fields.get? place = text.map .str) :
    Checked.field fields place (.ok none) (readText place) = .ok text := by
  rw [Checked.field, hget]
  cases text <;> rfl

/-- From the object of a node all its parts are read, when its children are. -/
theorem ofValue_of_hasParts {n : Node} {attrs data fields : Fields} {items : List Value}
    {children : List Node} (h : n.HasParts attrs data items fields)
    (hattrs : n.attrs.Alike attrs) (hdata : n.data.Alike data)
    (hread : ofItems 0 items = .ok children) (hchildren : AllAlike n.children children) :
    ∃ m, ofValue (.obj fields) = .ok m ∧ n.Alike m := by
  have halike : n.Alike ⟨n.kind, n.tag, attrs, children, n.value, data⟩ := by
    cases n
    exact .mk hattrs hchildren hdata
  refine ⟨_, ?_, halike⟩
  have hkind : Checked.field fields "type" (.error [("type", "missing")]) readKind = .ok n.kind := by
    rw [Checked.field, h.kind]
    simp [readKind, str?, ofName?_name]
  have hitems : Checked.field fields "children" (.ok []) ofChildren = .ok children := by
    rw [Checked.field, h.children]
    cases hempty : n.children.isEmpty with
    | true => rw [if_pos rfl, hchildren.eq_nil hempty]
    | false => exact hread
  rw [ofValue, draft_eq, hkind, hitems, field_readText h.tag, field_readText h.value,
    field_readFields h.attrs hattrs, field_readFields h.data hdata]
  rfl

end Reading

section Trees

theorem all_children_iff {kind : NodeKind} {tag value : Option String} {attrs data : Fields}
    {children : List Node} :
    All IsJson ⟨kind, tag, attrs, children, value, data⟩ ↔
      (attrs.IsJson ∧ data.IsJson) ∧ ∀ c ∈ children, c.All IsJson := by
  rw [all_iff]
  constructor
  · rintro ⟨h, hchildren⟩
    exact ⟨⟨h.attrs, h.data⟩, hchildren⟩
  · rintro ⟨⟨hattrs, hdata⟩, hchildren⟩
    exact ⟨⟨hattrs, hdata⟩, hchildren⟩

theorem storableFields_of_isJson {fs : Fields} (h : fs.IsJson) : storableFields fs = fs :=
  storableFields_of_arePlain fs (fieldsArePlain_of_fieldsAreJson fs h.2)

mutual

theorem isJson_toValue : (n : Node) → n.All IsJson → n.toValue.IsJson
  | ⟨kind, tag, attrs, children, value, data⟩, h => by
      obtain ⟨⟨hattrs, hdata⟩, hchildren⟩ := all_children_iff.mp h
      rw [toValue_eq, Value.IsJson, Json.fieldsAreJson_iff]
      refine ⟨nodup_storedFields _, forall_mem_storedFields (fun _ ↦ ?_) ?_ ?_ ?_⟩
      · simp [Value.IsJson]
      · rw [storableFields_of_isJson hattrs, Value.IsJson]
        exact hattrs
      · rw [storableFields_of_isJson hdata, Value.IsJson]
        exact hdata
      · rw [Value.IsJson]
        exact areJson_toValues children hchildren

theorem areJson_toValues : (ns : List Node) → (∀ n ∈ ns, n.All IsJson) →
    AreJson (toValue.toValues ns)
  | [], _ => trivial
  | n :: rest, h => by
      rw [List.forall_mem_cons] at h
      exact ⟨isJson_toValue n h.1, areJson_toValues rest h.2⟩

end

mutual

theorem isWritten_sorted : (n : Node) → IsWritten n (Json.sorted n.toValue)
  | ⟨kind, tag, attrs, children, value, data⟩ => by
      rw [toValue_eq, Json.sorted]
      exact .mk ((hasParts_storedFields _).sorted (nodup_storedFields _))
        (areWritten_sortedItems children)

theorem areWritten_sortedItems : (ns : List Node) →
    AreWritten ns (Json.sortedItems (toValue.toValues ns))
  | [] => .nil
  | n :: rest => .cons (isWritten_sorted n) (areWritten_sortedItems rest)

end

/-- A node whose fields are stored as they are. -/
structure IsStored (n : Node) : Prop where
  attrs : storableFields n.attrs = n.attrs
  data : storableFields n.data = n.data

mutual

theorem ofValue_sorted_of_isStored : (n : Node) → n.All IsStored →
    ∃ m, ofValue (Json.sorted n.toValue) = .ok m ∧ n.Alike m
  | ⟨kind, tag, attrs, children, value, data⟩, h => by
      obtain ⟨⟨hattrs, hdata⟩, hchildren⟩ := all_iff.mp h
      dsimp only at hattrs hdata hchildren
      obtain ⟨ms, hread, hms⟩ := ofItems_sortedItems children hchildren 0
      have hparts := hasParts_storedFields ⟨kind, tag, attrs, children, value, data⟩
      dsimp only at hparts
      rw [hattrs, hdata] at hparts
      rw [toValue_eq, Json.sorted]
      exact ofValue_of_hasParts (hparts.sorted (nodup_storedFields _))
        (Json.alike_sortedFields attrs) (Json.alike_sortedFields data) hread hms

theorem ofItems_sortedItems : (ns : List Node) → (∀ n ∈ ns, n.All IsStored) → (index : Nat) →
    ∃ ms, ofItems index (Json.sortedItems (toValue.toValues ns)) = .ok ms ∧ AllAlike ns ms
  | [], _, index => ⟨[], rfl, .nil⟩
  | n :: rest, h, index => by
      rw [List.forall_mem_cons] at h
      obtain ⟨m, hm, halike⟩ := ofValue_sorted_of_isStored n h.1
      obtain ⟨ms, hms, hrest⟩ := ofItems_sortedItems rest h.2 (index + 1)
      refine ⟨m :: ms, ?_, .cons halike hrest⟩
      rw [toValue.toValues, Json.sortedItems, ofItems, hm, hms]
      rfl

end

/-- A tree is read back from the sorted form of its object. -/
theorem ofValue_sorted (n : Node) (h : n.All IsJson) :
    ∃ m, ofValue (Json.sorted n.toValue) = .ok m ∧ n.Alike m :=
  ofValue_sorted_of_isStored n fun m hm ↦
    ⟨storableFields_of_isJson (h m hm).attrs, storableFields_of_isJson (h m hm).data⟩

end Trees

end Node

end SafeMarkdown

namespace SafeMarkdown

open Value

namespace Fields

/-- The fields of an object that can be told from its JSON text. -/
def IsPlain (admitted : Double → Prop) (fs : Fields) : Prop :=
  (fs.map Prod.fst).Nodup ∧ FieldsArePlain admitted fs

variable {fs gs hs : Fields}

theorem alike_of_perm (h : fs.Perm gs) : fs.Alike gs :=
  ⟨fs, .refl fs, h⟩

theorem Alike.refl (fs : Fields) : fs.Alike fs :=
  alike_of_perm (.refl fs)

theorem Alike.symm (h : fs.Alike gs) : gs.Alike fs :=
  alike_obj_iff.mp (alike_obj_iff.mpr h).symm

theorem Alike.trans (h : fs.Alike gs) (h' : gs.Alike hs) : fs.Alike hs :=
  alike_obj_iff.mp ((alike_obj_iff.mpr h).trans (alike_obj_iff.mpr h'))

theorem Alike.isEmpty (h : fs.Alike gs) : fs.isEmpty = gs.isEmpty := by
  obtain ⟨ks, hks, hperm⟩ := h
  have hlength : fs.length = gs.length := by
    rw [(fieldsAlike_iff.mp hks).length_eq, hperm.length_eq]
  cases fs <;> cases gs <;> simp_all

end Fields

namespace Node

/-- A node that can be told from its text: what it holds are values of JSON, with integers of any
length. -/
structure IsPlain (n : Node) : Prop where
  attrs : n.attrs.IsPlain Double.IsFinite
  data : n.data.IsPlain Double.IsFinite

section Equivalence

mutual

theorem Alike.symm : {n m : Node} → Alike n m → Alike m n
  | _, _, .mk hattrs hchildren hdata => .mk hattrs.symm hchildren.symm hdata.symm

theorem AllAlike.symm : {ns ms : List Node} → AllAlike ns ms → AllAlike ms ns
  | _, _, .nil => .nil
  | _, _, .cons h hrest => .cons h.symm hrest.symm

end

mutual

theorem Alike.trans : {n m k : Node} → Alike n m → Alike m k → Alike n k
  | _, _, _, .mk hattrs hchildren hdata, .mk hattrs' hchildren' hdata' =>
    .mk (hattrs.trans hattrs') (hchildren.trans hchildren') (hdata.trans hdata')

theorem AllAlike.trans : {ns ms ks : List Node} → AllAlike ns ms → AllAlike ms ks → AllAlike ns ks
  | _, _, _, .nil, h => h
  | _, _, _, .cons h hrest, .cons h' hrest' => .cons (h.trans h') (hrest.trans hrest')

end

theorem AllAlike.isEmpty {ns ms : List Node} (h : AllAlike ns ms) : ns.isEmpty = ms.isEmpty := by
  cases h <;> rfl

end Equivalence

section Objects

theorem storableFields_of_isPlain {fs : Fields} (h : fs.IsPlain Double.IsFinite) :
    storableFields fs = fs :=
  storableFields_of_arePlain fs h.2

mutual

theorem isPlain_toValue : (n : Node) → n.All IsPlain → n.toValue.IsPlain Double.IsFinite
  | ⟨kind, tag, attrs, children, value, data⟩, h => by
      obtain ⟨⟨hattrs, hdata⟩, hchildren⟩ := all_iff.mp h
      dsimp only at hattrs hdata hchildren
      rw [toValue_eq, Value.IsPlain, fieldsArePlain_iff]
      refine ⟨nodup_storedFields _, forall_mem_storedFields (fun _ ↦ ?_) ?_ ?_ ?_⟩
      · simp [Value.IsPlain]
      · rw [storableFields_of_isPlain hattrs, Value.IsPlain]
        exact hattrs
      · rw [storableFields_of_isPlain hdata, Value.IsPlain]
        exact hdata
      · rw [Value.IsPlain]
        exact arePlain_toValues children hchildren

theorem arePlain_toValues : (ns : List Node) → (∀ n ∈ ns, n.All IsPlain) →
    ArePlain Double.IsFinite (toValue.toValues ns)
  | [], _ => trivial
  | n :: rest, h => by
      rw [List.forall_mem_cons] at h
      exact ⟨isPlain_toValue n h.1, arePlain_toValues rest h.2⟩

end

theorem toValue_eq_obj {n : Node} (h : n.All IsPlain) :
    ∃ fs, n.toValue = .obj fs ∧ FieldsArePlain Double.IsFinite fs := by
  have hvalue := isPlain_toValue n h
  obtain ⟨kind, tag, attrs, children, value, data⟩ := n
  rw [toValue_eq, Value.IsPlain] at hvalue
  exact ⟨_, toValue_eq .., hvalue.2⟩

theorem fieldsAlike_append {fs fs' gs gs' : Fields} (h : FieldsAlike fs fs')
    (h' : FieldsAlike gs gs') : FieldsAlike (fs ++ gs) (fs' ++ gs') :=
  fieldsAlike_iff.mpr (List.rel_append (fieldsAlike_iff.mp h) (fieldsAlike_iff.mp h'))

theorem fieldsAlike_fieldUnless {isDefault isDefault' : Bool} (name : String) {v w : Value}
    (hsame : isDefault = isDefault') (h : Value.Alike v w) :
    FieldsAlike (fieldUnless isDefault name v) (fieldUnless isDefault' name w) := by
  subst hsame
  cases isDefault with
  | true => exact .nil
  | false => exact .cons name h .nil

mutual

/-- The objects of trees that are the same but for the order of fields are the same in this sense. -/
theorem alike_toValue : {n m : Node} → n.All IsPlain → m.All IsPlain → Alike n m →
    n.toValue.Alike m.toValue
  | ⟨kind, tag, attrs, children, value, data⟩, ⟨_, _, attrs', children', _, data'⟩, hn, hm,
      .mk hattrs hchildren hdata => by
      obtain ⟨⟨hnattrs, hndata⟩, hnchildren⟩ := all_iff.mp hn
      obtain ⟨⟨hmattrs, hmdata⟩, hmchildren⟩ := all_iff.mp hm
      dsimp only at hnattrs hndata hnchildren hmattrs hmdata hmchildren
      have hitems := allAlike_toValues hnchildren hmchildren hchildren
      rw [toValue_eq, toValue_eq]
      refine .obj ?_ (.refl _)
      unfold storedFields
      dsimp only
      rw [storableFields_of_isPlain hnattrs, storableFields_of_isPlain hmattrs,
        storableFields_of_isPlain hndata, storableFields_of_isPlain hmdata]
      refine fieldsAlike_append (fieldsAlike_append (fieldsAlike_append (fieldsAlike_append
        (fieldsAlike_append ?_ ?_) ?_) ?_) ?_) ?_
      · exact .cons _ (.refl _) .nil
      · exact fieldsAlike_fieldUnless _ rfl (.refl _)
      · exact fieldsAlike_fieldUnless _ hattrs.isEmpty (alike_obj_iff.mpr hattrs)
      · exact fieldsAlike_fieldUnless _ hchildren.isEmpty (.arr hitems)
      · exact fieldsAlike_fieldUnless _ rfl (.refl _)
      · exact fieldsAlike_fieldUnless _ hdata.isEmpty (alike_obj_iff.mpr hdata)

theorem allAlike_toValues : {ns ms : List Node} → (∀ n ∈ ns, n.All IsPlain) →
    (∀ m ∈ ms, m.All IsPlain) → AllAlike ns ms →
    Value.AllAlike (toValue.toValues ns) (toValue.toValues ms)
  | [], [], _, _, .nil => .nil
  | n :: ns, m :: ms, hns, hms, .cons h hrest => by
      rw [List.forall_mem_cons] at hns hms
      exact .cons (alike_toValue hns.1 hms.1 h) (allAlike_toValues hns.2 hms.2 hrest)

end

theorem all_isStored_of_isPlain {n : Node} (h : n.All IsPlain) : n.All IsStored :=
  fun m hm ↦ ⟨storableFields_of_isPlain (h m hm).attrs, storableFields_of_isPlain (h m hm).data⟩

/-- The canonical texts of trees are equal exactly when the trees are the same but for the order of
fields. -/
theorem canonicalText_eq_iff {n m : Node} (hn : n.All IsPlain) (hm : m.All IsPlain) :
    n.canonicalText = m.canonicalText ↔ n.Alike m := by
  have hvn := isPlain_toValue n hn
  rw [canonicalText, canonicalText, Json.canonicalText_eq_iff hvn (isPlain_toValue m hm)]
  refine ⟨fun h ↦ ?_, alike_toValue hn hm⟩
  -- both trees are read back from one sorted object
  have hsorted := (Json.sorted_eq_sorted_iff hvn).mpr h
  obtain ⟨k, hread, hk⟩ := ofValue_sorted_of_isStored n (all_isStored_of_isPlain hn)
  obtain ⟨k', hread', hk'⟩ := ofValue_sorted_of_isStored m (all_isStored_of_isPlain hm)
  rw [hsorted, hread'] at hread
  cases hread
  exact hk.trans hk'.symm

end Objects

end Node

end SafeMarkdown
