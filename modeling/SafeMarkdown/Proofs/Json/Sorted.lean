import Mathlib.Data.List.Forall2
import Mathlib.Data.List.Perm.Basic
import Mathlib.Data.String.Basic
import SafeMarkdown.Json.Printer
import SafeMarkdown.Proofs.Fields

/-!
# Values of JSON up to the order of fields

The values that a JSON text can hold, when two of them are the same but for the order of the fields
of their objects, and the sorted form of a value, which is the same in this sense and stays as it is
when it is sorted again.
-/

namespace SafeMarkdown

namespace Value

mutual

/-- Whether a value is one of JSON: integers are not too long to be read, doubles are finite, and
the names of the fields of an object are distinct. -/
def IsJson : Value → Prop
  | null => True
  | bool _ => True
  | int n => (Nat.toDigits 10 n.natAbs).length ≤ 4300
  | float x => ∃ negative rank, x = .finite negative rank
  | str _ => True
  | bytes _ => False
  | date _ => False
  | moment _ => False
  | arr items => AreJson items
  | obj fields => (fields.map Prod.fst).Nodup ∧ FieldsAreJson fields

def AreJson : List Value → Prop
  | [] => True
  | v :: rest => IsJson v ∧ AreJson rest

def FieldsAreJson : List (String × Value) → Prop
  | [] => True
  | (_, v) :: rest => IsJson v ∧ FieldsAreJson rest

end

mutual

/-- The same value, but for the order of the fields of objects. -/
inductive Alike : Value → Value → Prop
  | refl (v : Value) : Alike v v
  | arr {items items' : List Value} (h : AllAlike items items') : Alike (.arr items) (.arr items')
  | obj {fields fields' fields'' : Fields} (h : FieldsAlike fields fields')
      (hperm : fields'.Perm fields'') : Alike (.obj fields) (.obj fields'')

inductive AllAlike : List Value → List Value → Prop
  | nil : AllAlike [] []
  | cons {v w : Value} {vs ws : List Value} (h : Alike v w) (hrest : AllAlike vs ws) :
      AllAlike (v :: vs) (w :: ws)

/-- The same fields, in the same order. -/
inductive FieldsAlike : Fields → Fields → Prop
  | nil : FieldsAlike [] []
  | cons (name : String) {v w : Value} {fs gs : Fields} (h : Alike v w) (hrest : FieldsAlike fs gs) :
      FieldsAlike ((name, v) :: fs) ((name, w) :: gs)

end

end Value

namespace Fields

open Value

/-- The fields of an object of JSON. -/
def IsJson (fs : Fields) : Prop :=
  (fs.map Prod.fst).Nodup ∧ FieldsAreJson fs

/-- The same fields in some order. -/
def Alike (fs gs : Fields) : Prop :=
  ∃ hs, FieldsAlike fs hs ∧ hs.Perm gs

end Fields

namespace Json

open Value

section Fields

variable {fs : Fields} {name : String} {v : Value}

theorem insertField_perm (f : String × Value) (fs : Fields) : (insertField f fs).Perm (f :: fs) := by
  induction fs with
  | nil => exact .refl _
  | cons g fs ih =>
      rw [insertField]
      split
      · exact (List.Perm.cons g ih).trans (List.Perm.swap f g fs)
      · exact .refl _

theorem map_fst_sortedFields (fs : Fields) :
    ((sortedFields fs).map Prod.fst).Perm (fs.map Prod.fst) := by
  induction fs with
  | nil => simp [sortedFields]
  | cons f fs ih =>
      obtain ⟨name, v⟩ := f
      rw [sortedFields]
      exact ((insertField_perm _ _).map Prod.fst).trans (ih.cons name)

theorem nodup_sortedFields (h : (fs.map Prod.fst).Nodup) :
    ((sortedFields fs).map Prod.fst).Nodup :=
  (map_fst_sortedFields fs).nodup_iff.mpr h

/-- The names of fields grow. -/
def Ascending (fs : Fields) : Prop :=
  fs.Pairwise fun f g ↦ f.1 < g.1

theorem insertField_ascending (hfs : Ascending fs) (hname : name ∉ fs.map Prod.fst) :
    Ascending (insertField (name, v) fs) := by
  induction fs with
  | nil => exact List.pairwise_singleton _ _
  | cons g fs ih =>
      obtain ⟨hg, hrest⟩ := List.pairwise_cons.mp hfs
      rw [List.map_cons, List.mem_cons, not_or] at hname
      rw [insertField]
      split
      · rename_i hless
        refine List.pairwise_cons.mpr ⟨fun f hf ↦ ?_, ih hrest hname.2⟩
        rcases List.mem_cons.mp ((insertField_perm _ _).mem_iff.mp hf) with rfl | hf
        · exact hless
        · exact hg f hf
      · rename_i hless
        have hlt : name < g.1 := lt_of_le_of_ne (not_lt.mp hless) hname.1
        refine List.pairwise_cons.mpr ⟨fun f hf ↦ ?_, hfs⟩
        rcases List.mem_cons.mp hf with rfl | hf
        · exact hlt
        · exact hlt.trans (hg f hf)

theorem insertField_eq_cons (h : ∀ g ∈ fs, name < g.1) :
    insertField (name, v) fs = (name, v) :: fs := by
  cases fs with
  | nil => rfl
  | cons g fs =>
      have hlt : name < g.1 := h g List.mem_cons_self
      rw [insertField, if_neg hlt.asymm]

theorem sortedFields_ascending (h : (fs.map Prod.fst).Nodup) : Ascending (sortedFields fs) := by
  induction fs with
  | nil => exact List.Pairwise.nil
  | cons f fs ih =>
      obtain ⟨name, v⟩ := f
      rw [List.map_cons, List.nodup_cons] at h
      rw [sortedFields]
      apply insertField_ascending (ih h.2)
      rw [(map_fst_sortedFields fs).mem_iff]
      exact h.1

/-- What sorting makes of a field is found under its name. -/
theorem get?_sortedFields (h : (fs.map Prod.fst).Nodup) (name : String) :
    Fields.get? (sortedFields fs) name = (Fields.get? fs name).map sorted := by
  have hinsert (n : String) (w : Value) (gs : Fields) (hn : n ∉ gs.map Prod.fst) :
      Fields.get? (insertField (n, w) gs) name = if name = n then some w else gs.get? name := by
    induction gs with
    | nil => rw [insertField, Fields.get?_cons]
    | cons g gs ih =>
        obtain ⟨m, u⟩ := g
        rw [List.map_cons, List.mem_cons, not_or] at hn
        rw [insertField]
        split
        · rw [Fields.get?_cons, Fields.get?_cons, ih hn.2]
          by_cases hm : name = m
          · have hne : ¬ name = n := fun heq ↦ hn.1 (heq.symm.trans hm)
            rw [if_pos hm, if_pos hm, if_neg hne]
          · rw [if_neg hm, if_neg hm]
        · rw [Fields.get?_cons]
  induction fs with
  | nil => rfl
  | cons f fs ih =>
      obtain ⟨n, w⟩ := f
      rw [List.map_cons, List.nodup_cons] at h
      have hn : n ∉ (sortedFields fs).map Prod.fst := by
        rw [(map_fst_sortedFields fs).mem_iff]
        exact h.1
      rw [sortedFields, hinsert n _ _ hn, ih h.2, Fields.get?_cons]
      split <;> rfl

theorem fieldsAreJson_iff : FieldsAreJson fs ↔ ∀ f ∈ fs, f.2.IsJson := by
  induction fs with
  | nil => simp [FieldsAreJson]
  | cons f fs ih =>
      obtain ⟨name, v⟩ := f
      rw [FieldsAreJson, ih, List.forall_mem_cons]

end Fields

section Sorting

mutual

theorem isJson_sorted : (v : Value) → v.IsJson → (sorted v).IsJson
  | .arr items, h => by
      rw [sorted, IsJson]
      rw [IsJson] at h
      exact areJson_sortedItems items h
  | .obj fields, h => by
      rw [sorted, IsJson]
      rw [IsJson] at h
      exact ⟨nodup_sortedFields h.1, fieldsAreJson_sortedFields fields h.2⟩
  | .null, h | .bool _, h | .int _, h | .float _, h | .str _, h | .bytes _, h | .date _, h
  | .moment _, h => h

theorem areJson_sortedItems : (items : List Value) → AreJson items → AreJson (sortedItems items)
  | [], h => h
  | v :: rest, h => ⟨isJson_sorted v h.1, areJson_sortedItems rest h.2⟩

theorem fieldsAreJson_sortedFields : (fields : Fields) → FieldsAreJson fields →
    FieldsAreJson (sortedFields fields)
  | [], h => h
  | (name, v) :: rest, h => by
      have hrest := fieldsAreJson_sortedFields rest h.2
      rw [sortedFields, fieldsAreJson_iff]
      intro f hf
      rcases List.mem_cons.mp ((insertField_perm _ _).mem_iff.mp hf) with rfl | hf
      · exact isJson_sorted v h.1
      · exact fieldsAreJson_iff.mp hrest f hf

end

mutual

/-- Sorting a value changes the order of fields only. -/
theorem alike_sorted : (v : Value) → Alike v (sorted v)
  | .arr items => by
      rw [sorted]
      exact .arr (allAlike_sortedItems items)
  | .obj fields => by
      obtain ⟨gs, hgs, hperm⟩ := alike_sortedFields fields
      rw [sorted]
      exact .obj hgs hperm
  | .null | .bool _ | .int _ | .float _ | .str _ | .bytes _ | .date _ | .moment _ => .refl _

theorem allAlike_sortedItems : (items : List Value) → AllAlike items (sortedItems items)
  | [] => .nil
  | v :: rest => .cons (alike_sorted v) (allAlike_sortedItems rest)

theorem alike_sortedFields : (fields : Fields) → fields.Alike (sortedFields fields)
  | [] => ⟨[], .nil, .refl _⟩
  | (name, v) :: rest => by
      obtain ⟨gs, hgs, hperm⟩ := alike_sortedFields rest
      refine ⟨(name, sorted v) :: gs, .cons name (alike_sorted v) hgs, ?_⟩
      rw [sortedFields]
      exact (hperm.cons _).trans (insertField_perm _ _).symm

end

theorem sortedFields_of_ascending {fs : Fields} (h : Ascending fs)
    (hsame : ∀ f ∈ fs, sorted f.2 = f.2) : sortedFields fs = fs := by
  induction fs with
  | nil => rfl
  | cons f fs ih =>
      obtain ⟨name, v⟩ := f
      obtain ⟨hless, hrest⟩ := List.pairwise_cons.mp h
      rw [List.forall_mem_cons] at hsame
      rw [sortedFields, ih hrest hsame.2, hsame.1, insertField_eq_cons hless]

mutual

/-- Sorting a sorted value again changes nothing. -/
theorem sorted_sorted : (v : Value) → v.IsJson → sorted (sorted v) = sorted v
  | .arr items, h => by
      rw [IsJson] at h
      rw [sorted, sorted, sortedItems_sortedItems items h]
  | .obj fields, h => by
      rw [IsJson] at h
      rw [sorted, sorted, sortedFields_of_ascending (sortedFields_ascending h.1)
        (sorted_of_mem_sortedFields fields h.2)]
  | .null, _ | .bool _, _ | .int _, _ | .float _, _ | .str _, _ | .bytes _, _ | .date _, _
  | .moment _, _ => rfl

theorem sortedItems_sortedItems : (items : List Value) → AreJson items →
    sortedItems (sortedItems items) = sortedItems items
  | [], _ => rfl
  | v :: rest, h => by
      rw [sortedItems, sortedItems, sorted_sorted v h.1, sortedItems_sortedItems rest h.2]

theorem sorted_of_mem_sortedFields : (fields : Fields) → FieldsAreJson fields →
    ∀ f ∈ sortedFields fields, sorted f.2 = f.2
  | [], _ => List.forall_mem_nil _
  | (name, v) :: rest, h => by
      intro f hf
      rw [sortedFields] at hf
      rcases List.mem_cons.mp ((insertField_perm _ _).mem_iff.mp hf) with rfl | hf
      · exact sorted_sorted v h.1
      · exact sorted_of_mem_sortedFields rest h.2 f hf

end

end Sorting

end Json

end SafeMarkdown
