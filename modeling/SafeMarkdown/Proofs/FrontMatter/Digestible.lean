import SafeMarkdown.Proofs.FrontMatter.Normal
import SafeMarkdown.Proofs.Payload

/-!
# Which front matter has a digest

A digest is taken of the canonical text of front matter. The values that YAML knows become values
with texts for keys and dates, and all of these have a canonical text but bytes: a block may hold
bytes at any depth, and then it is read but its digest fails. Bytes do no harm as a key, as a
declared field, or where a later entry with the same key takes their place.
-/

namespace SafeMarkdown

namespace Value

/-- Bytes are a part of a value. -/
inductive HoldsBytes : Value → Prop
  | bytes (bs : List UInt8) : HoldsBytes (.bytes bs)
  | item {items : List Value} {v : Value} (hmem : v ∈ items) (hv : HoldsBytes v) :
      HoldsBytes (.arr items)
  | field {fields : Fields} {f : String × Value} (hmem : f ∈ fields) (hf : HoldsBytes f.2) :
      HoldsBytes (.obj fields)

end Value

namespace Json

theorem inFields_eq_inItems (fs : Fields) :
    unwritable.inFields fs = unwritable.inItems (fs.map Prod.snd) := by
  induction fs with
  | nil => rfl
  | cons f rest ih =>
      obtain ⟨name, v⟩ := f
      rw [unwritable.inFields, ih, List.map_cons, unwritable.inItems]

theorem exists_of_inItems {vs : List Value} {kind : String}
    (h : unwritable.inItems vs = some kind) : ∃ v ∈ vs, unwritable v = some kind := by
  induction vs with
  | nil => cases h
  | cons v rest ih =>
      rw [unwritable.inItems, Option.or_eq_some_iff] at h
      rcases h with h | ⟨-, h⟩
      · exact ⟨v, List.mem_cons_self, h⟩
      · obtain ⟨w, hw, hkind⟩ := ih h
        exact ⟨w, List.mem_cons_of_mem v hw, hkind⟩

theorem exists_of_unwritable_obj {fs : Fields} {kind : String}
    (h : unwritable (.obj fs) = some kind) : ∃ f ∈ fs, unwritable f.2 = some kind := by
  rw [unwritable, inFields_eq_inItems] at h
  obtain ⟨v, hv, hkind⟩ := exists_of_inItems h
  obtain ⟨f, hf, rfl⟩ := List.mem_map.mp hv
  exact ⟨f, hf, hkind⟩

theorem isSome_inItems {vs : List Value} {v : Value} (hv : v ∈ vs)
    (h : (unwritable v).isSome = true) : (unwritable.inItems vs).isSome = true := by
  induction vs with
  | nil => cases hv
  | cons w rest ih =>
      rw [unwritable.inItems, Option.isSome_or, Bool.or_eq_true]
      rcases List.mem_cons.mp hv with rfl | hv
      · exact .inl h
      · exact .inr (ih hv)

theorem isSome_unwritable {v : Value} (h : v.HoldsBytes) : (unwritable v).isSome = true := by
  induction h with
  | bytes bs => rfl
  | item hmem _ ih =>
      rw [unwritable]
      exact isSome_inItems hmem ih
  | field hmem _ ih =>
      rw [unwritable, inFields_eq_inItems]
      exact isSome_inItems (List.mem_map_of_mem hmem) ih

end Json

namespace Yaml.Data

/-- Bytes are a part of what YAML knows, keys apart. An entry of a mapping counts unless a later one
has the same name. -/
inductive HoldsBytes : Data → Prop
  | bytes (bs : List UInt8) : HoldsBytes (.bytes bs)
  | seq {items : List Data} {x : Data} (hmem : x ∈ items) (hx : HoldsBytes x) :
      HoldsBytes (.seq items)
  | set {items : List Data} {x : Data} (hmem : x ∈ items) (hx : HoldsBytes x) :
      HoldsBytes (.set items)
  | map {before after : List (Data × Data)} {k v : Data}
      (hlast : ∀ e ∈ after, keyText k ≠ keyText e.1) (hv : HoldsBytes v) :
      HoldsBytes (.map (before ++ (k, v) :: after))

/-- What holds of the scalars, and of a collection when it holds of its parts, holds of all data. -/
theorem part_induction {motive : Data → Prop} (scalar : ∀ d : Data, d.isKey = true → motive d)
    (seq : ∀ items : List Data, (∀ x ∈ items, motive x) → motive (.seq items))
    (set : ∀ items : List Data, (∀ x ∈ items, motive x) → motive (.set items))
    (map : ∀ entries : List (Data × Data), (∀ e ∈ entries, motive e.2) → motive (.map entries)) :
    (d : Data) → motive d
  | .seq items => seq items fun x _ ↦ part_induction scalar seq set map x
  | .set items => set items fun x _ ↦ part_induction scalar seq set map x
  | .map entries => map entries fun e _ ↦ part_induction scalar seq set map e.2
  | .null | .bool _ | .int _ | .float _ | .str _ | .bytes _ | .date _ | .moment _ => scalar _ rfl
termination_by d => sizeOf d
decreasing_by
  · simp only [Data.seq.sizeOf_spec]
    have := List.sizeOf_lt_of_mem ‹x ∈ items›
    omega
  · simp only [Data.set.sizeOf_spec]
    have := List.sizeOf_lt_of_mem ‹x ∈ items›
    omega
  · obtain ⟨k, v⟩ := e
    simp only [Data.map.sizeOf_spec]
    have := List.sizeOf_lt_of_mem ‹(k, v) ∈ entries›
    simp only [Prod.mk.sizeOf_spec] at this
    omega

theorem itemValues_eq_map (items : List Data) : itemValues items = items.map toValue := by
  induction items with
  | nil => rfl
  | cons x rest ih => rw [itemValues, ih, List.map_cons]

theorem entryValues_eq_map (entries : List (Data × Data)) :
    entryValues entries = entries.map fun e ↦ (keyText e.1, e.2.toValue) := by
  induction entries with
  | nil => rfl
  | cons e rest ih => rw [entryValues, ih, List.map_cons]

theorem mem_fields_iff {entries : List (Data × Data)} {f : String × Value} :
    f ∈ Fields.ofList (entryValues entries) ↔ ∃ before k v after,
      entries = before ++ (k, v) :: after ∧ (∀ e ∈ after, keyText k ≠ keyText e.1) ∧
        f = (keyText k, v.toValue) := by
  rw [Fields.mem_ofList_iff, entryValues_eq_map]
  refine ⟨?_, ?_⟩
  · rintro ⟨before', after', hsplit, hafter⟩
    obtain ⟨before, tail, rfl, rfl, htail⟩ := List.map_eq_append_iff.mp hsplit
    obtain ⟨⟨k, v⟩, after, rfl, rfl, rfl⟩ := List.map_eq_cons_iff.mp htail
    exact ⟨before, k, v, after, rfl, fun e he ↦ hafter _ (List.mem_map_of_mem he), rfl⟩
  · rintro ⟨before, k, v, after, rfl, hafter, rfl⟩
    refine ⟨before.map fun e ↦ (keyText e.1, e.2.toValue),
      after.map fun e ↦ (keyText e.1, e.2.toValue), by rw [List.map_append, List.map_cons], ?_⟩
    intro g hg
    obtain ⟨e, he, rfl⟩ := List.mem_map.mp hg
    exact hafter e he

theorem holdsBytes_toValue {d : Data} (h : d.HoldsBytes) : d.toValue.HoldsBytes := by
  induction h with
  | bytes bs => exact .bytes bs
  | seq hmem _ ih | set hmem _ ih =>
      rw [toValue, itemValues_eq_map]
      exact .item (List.mem_map_of_mem hmem) ih
  | map hlast _ ih =>
      rw [toValue]
      exact .field (mem_fields_iff.mpr ⟨_, _, _, _, rfl, hlast, rfl⟩) ih

theorem exists_of_inItems_itemValues {items : List Data} {kind : String}
    (h : Json.unwritable.inItems (itemValues items) = some kind) :
    ∃ x ∈ items, Json.unwritable x.toValue = some kind := by
  rw [itemValues_eq_map] at h
  obtain ⟨v, hv, hkind⟩ := Json.exists_of_inItems h
  obtain ⟨x, hx, rfl⟩ := List.mem_map.mp hv
  exact ⟨x, hx, hkind⟩

/-- A part that has no JSON text is bytes. -/
theorem holdsBytes_of_unwritable (d : Data) {kind : String}
    (h : Json.unwritable d.toValue = some kind) : kind = "bytes" ∧ d.HoldsBytes := by
  induction d using part_induction with
  | scalar d hkey =>
      cases d with
      | bytes bs =>
          cases h
          exact ⟨rfl, .bytes bs⟩
      | null | bool _ | int _ | float _ | str _ | date _ | moment _ => cases h
      | seq _ | set _ | map _ => cases hkey
  | seq items ih =>
      rw [toValue, Json.unwritable] at h
      obtain ⟨x, hx, hkind⟩ := exists_of_inItems_itemValues h
      exact ⟨(ih x hx hkind).1, .seq hx (ih x hx hkind).2⟩
  | set items ih =>
      rw [toValue, Json.unwritable] at h
      obtain ⟨x, hx, hkind⟩ := exists_of_inItems_itemValues h
      exact ⟨(ih x hx hkind).1, .set hx (ih x hx hkind).2⟩
  | map entries ih =>
      rw [toValue] at h
      obtain ⟨f, hf, hkind⟩ := Json.exists_of_unwritable_obj h
      obtain ⟨before, k, v, after, rfl, hlast, rfl⟩ := mem_fields_iff.mp hf
      have hv := ih (k, v) (List.mem_append_right before List.mem_cons_self) hkind
      exact ⟨hv.1, .map hlast hv.2⟩

theorem unwritable_toValue_of_holdsBytes {d : Data} (h : d.HoldsBytes) :
    Json.unwritable d.toValue = some "bytes" := by
  have hsome := Json.isSome_unwritable (holdsBytes_toValue h)
  obtain ⟨kind, hkind⟩ := Option.isSome_iff_exists.mp hsome
  rw [hkind, (holdsBytes_of_unwritable d hkind).1]

theorem unwritable_toValue_of_not_holdsBytes {d : Data} (h : ¬ d.HoldsBytes) :
    Json.unwritable d.toValue = none :=
  Option.eq_none_iff_forall_ne_some.mpr fun _ hkind ↦ h (holdsBytes_of_unwritable d hkind).2

end Yaml.Data

namespace FrontMatter

/-- What is told of bytes that are to be written as JSON. -/
def bytesFailure : Failure :=
  .wrongShape "Object of type bytes is not JSON serializable"

theorem unwritable_tagsValue (tags : List String) : Json.unwritable (tagsValue tags) = none := by
  refine Option.eq_none_iff_forall_ne_some.mpr fun kind hkind ↦ ?_
  rw [tagsValue, Json.unwritable] at hkind
  obtain ⟨v, hv, hkind⟩ := Json.exists_of_inItems hkind
  obtain ⟨s, -, rfl⟩ := List.mem_map.mp hv
  cases hkind

theorem unwritable_of_declaredValue {fm : FrontMatter} {name : String} {v : Value}
    (h : fm.declaredValue name = some v) : Json.unwritable v = none := by
  unfold declaredValue at h
  split at h
  · obtain ⟨s, -, rfl⟩ := Option.map_eq_some_iff.mp h
    rfl
  · obtain ⟨s, -, rfl⟩ := Option.map_eq_some_iff.mp h
    rfl
  · obtain ⟨s, -, rfl⟩ := Option.map_eq_some_iff.mp h
    rfl
  · obtain ⟨tags, -, rfl⟩ := Option.map_eq_some_iff.mp h
    exact unwritable_tagsValue tags
  · cases h

/-- Only bytes among its further fields keep front matter of a text from having a JSON text. -/
theorem holdsBytes_extra_of_unwritable {fm : FrontMatter} (hloaded : ∀ f ∈ fm.extra, IsLoaded f.2)
    {kind : String} (h : Json.unwritable (.obj fm.toFields) = some kind) :
    kind = "bytes" ∧ (Value.obj fm.extra).HoldsBytes := by
  obtain ⟨f, hf, hkind⟩ := Json.exists_of_unwritable_obj h
  rw [toFields_eq, List.mem_append] at hf
  rcases hf with hf | hf
  · obtain ⟨name, -, hfield⟩ := List.mem_filterMap.mp hf
    obtain ⟨v, hvalue, rfl⟩ := Option.map_eq_some_iff.mp hfield
    rw [unwritable_of_declaredValue hvalue] at hkind
    cases hkind
  · obtain ⟨d, hd⟩ := hloaded f hf
    rw [hd] at hkind
    obtain ⟨hbytes, hholds⟩ := Yaml.Data.holdsBytes_of_unwritable d hkind
    exact ⟨hbytes, .field hf (hd ▸ Yaml.Data.holdsBytes_toValue hholds)⟩

theorem isSome_unwritable_toFields {fm : FrontMatter} (h : (Value.obj fm.extra).HoldsBytes) :
    (Json.unwritable (.obj fm.toFields)).isSome = true := by
  cases h with
  | field hmem hf =>
      refine Json.isSome_unwritable (.field ?_ hf)
      rw [toFields_eq]
      exact List.mem_append_right _ hmem

theorem isLoaded_of_mem_extra {text rest : String} {strict : Bool} {fm : FrontMatter}
    (h : (parse text strict).Returns (fm, rest)) {f : String × Value} (hf : f ∈ fm.extra) :
    IsLoaded f.2 := by
  obtain ⟨fields, hloaded, hfields⟩ := fields_of_parse h
  obtain ⟨-, -, -, -, hextra⟩ := ofFields_eq_ok_iff.mp hfields
  rw [hextra] at hf
  exact hloaded f (List.mem_filter.mp hf).1

theorem digestOf_of_unwritable {fm : FrontMatter}
    (h : Json.unwritable (.obj fm.toFields) = some "bytes") (body : String) :
    Payload.digestOf body fm = .error bytesFailure := by
  rw [Payload.digestOf, Payload.digestInput, Json.canonical, h]
  rfl

/-- An entry with the name of a later one, whose bytes are lost. -/
def renumbered : Yaml.Data :=
  .map [(.int 1, .bytes [0]), (.str "1", .set [.bool true]), (.bytes [0], .null)]

end FrontMatter

end SafeMarkdown
