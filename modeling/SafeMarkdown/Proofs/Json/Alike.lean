import SafeMarkdown.Proofs.Json.Sorted

/-!
# Equality up to the order of fields

To be the same but for the order of fields is an equivalence, and for values whose objects have
distinct names it is decided by sorting: two such values are the same in this sense exactly when
their sorted forms are equal.
-/

namespace SafeMarkdown

namespace Double

/-- Whether a double is a number and not an infinity. -/
def IsFinite (x : Double) : Prop :=
  ∃ negative rank, x = .finite negative rank

end Double

namespace Value

mutual

/-- Whether a value can be told from its JSON text: no part of it is bytes, a date or a moment, its
doubles are among those that are admitted, and the names of the fields of an object are distinct. -/
def IsPlain (admitted : Double → Prop) : Value → Prop
  | null => True
  | bool _ => True
  | int _ => True
  | float x => admitted x
  | str _ => True
  | bytes _ => False
  | date _ => False
  | moment _ => False
  | arr items => ArePlain admitted items
  | obj fields => (fields.map Prod.fst).Nodup ∧ FieldsArePlain admitted fields

def ArePlain (admitted : Double → Prop) : List Value → Prop
  | [] => True
  | v :: rest => IsPlain admitted v ∧ ArePlain admitted rest

def FieldsArePlain (admitted : Double → Prop) : Fields → Prop
  | [] => True
  | (_, v) :: rest => IsPlain admitted v ∧ FieldsArePlain admitted rest

end

section Plain

mutual

theorem isPlain_of_isJson : (v : Value) → v.IsJson → v.IsPlain Double.IsFinite
  | .arr items, h => by
      rw [IsJson] at h
      rw [IsPlain]
      exact arePlain_of_areJson items h
  | .obj fields, h => by
      rw [IsJson] at h
      rw [IsPlain]
      exact ⟨h.1, fieldsArePlain_of_fieldsAreJson fields h.2⟩
  | .float x, h => by
      rw [IsPlain]
      exact h
  | .null, _ | .bool _, _ | .int _, _ | .str _, _ => by simp [IsPlain]
  | .bytes _, h | .date _, h | .moment _, h => h.elim

theorem arePlain_of_areJson : (vs : List Value) → AreJson vs → ArePlain Double.IsFinite vs
  | [], _ => trivial
  | v :: rest, h => ⟨isPlain_of_isJson v h.1, arePlain_of_areJson rest h.2⟩

theorem fieldsArePlain_of_fieldsAreJson : (fs : Fields) → FieldsAreJson fs →
    FieldsArePlain Double.IsFinite fs
  | [], _ => trivial
  | (_, v) :: rest, h => ⟨isPlain_of_isJson v h.1, fieldsArePlain_of_fieldsAreJson rest h.2⟩

end

theorem fieldsArePlain_iff {admitted : Double → Prop} {fs : Fields} :
    FieldsArePlain admitted fs ↔ ∀ f ∈ fs, f.2.IsPlain admitted := by
  induction fs with
  | nil => simp [FieldsArePlain]
  | cons f fs ih =>
      obtain ⟨name, v⟩ := f
      rw [FieldsArePlain, ih, List.forall_mem_cons]

end Plain

section Deciding

instance : DecidablePred Double.IsFinite
  | .finite negative rank => isTrue ⟨negative, rank, rfl⟩
  | .infinite _ => isFalse nofun
  | .nan => isFalse nofun

variable {admitted : Double → Prop} [DecidablePred admitted]

mutual

def decidableIsPlain : (v : Value) → Decidable (v.IsPlain admitted)
  | .arr items => decidableArePlain items
  | .obj fields =>
    have := decidableFieldsArePlain fields
    inferInstanceAs (Decidable ((fields.map Prod.fst).Nodup ∧ FieldsArePlain admitted fields))
  | .float x => inferInstanceAs (Decidable (admitted x))
  | .null | .bool _ | .int _ | .str _ => isTrue trivial
  | .bytes _ | .date _ | .moment _ => isFalse id

def decidableArePlain : (vs : List Value) → Decidable (ArePlain admitted vs)
  | [] => isTrue trivial
  | v :: rest =>
    have := decidableIsPlain v
    have := decidableArePlain rest
    inferInstanceAs (Decidable (v.IsPlain admitted ∧ ArePlain admitted rest))

def decidableFieldsArePlain : (fs : Fields) → Decidable (FieldsArePlain admitted fs)
  | [] => isTrue trivial
  | (_, v) :: rest =>
    have := decidableIsPlain v
    have := decidableFieldsArePlain rest
    inferInstanceAs (Decidable (v.IsPlain admitted ∧ FieldsArePlain admitted rest))

end

instance (fs : Fields) : Decidable (FieldsArePlain admitted fs) :=
  decidableFieldsArePlain fs

end Deciding

section Equivalence

theorem fieldsAlike_iff {fs gs : Fields} :
    FieldsAlike fs gs ↔ List.Forall₂ (fun f g ↦ f.1 = g.1 ∧ Alike f.2 g.2) fs gs := by
  constructor
  · intro h
    induction fs generalizing gs with
    | nil =>
        cases h
        exact .nil
    | cons f fs ih =>
        cases h with
        | cons name h hrest => exact .cons ⟨rfl, h⟩ (ih hrest)
  · intro h
    induction h with
    | nil => exact .nil
    | @cons f g fs gs hfg _ ih =>
        obtain ⟨name, v⟩ := f
        obtain ⟨_, w⟩ := g
        obtain ⟨rfl, hvw⟩ := hfg
        exact .cons name hvw ih

/-- Fields in another order are alike to fields in another order. -/
theorem FieldsAlike.comp_perm {fs gs hs : Fields} (hperm : fs.Perm gs) (h : FieldsAlike gs hs) :
    ∃ ks, FieldsAlike fs ks ∧ ks.Perm hs := by
  obtain ⟨ks, hks, hperm⟩ := List.perm_comp_forall₂ hperm (fieldsAlike_iff.mp h)
  exact ⟨ks, fieldsAlike_iff.mpr hks, hperm⟩

theorem FieldsAlike.map_fst {fs gs : Fields} (h : FieldsAlike fs gs) :
    gs.map Prod.fst = fs.map Prod.fst := by
  induction fs generalizing gs with
  | nil =>
      cases h
      rfl
  | cons f fs ih =>
      cases h with
      | cons name h hrest => rw [List.map_cons, List.map_cons, ih hrest]

mutual

theorem Alike.symm : {v w : Value} → Alike v w → Alike w v
  | _, _, .refl v => .refl v
  | _, _, .arr h => .arr h.symm
  | _, _, .obj h hperm => by
      obtain ⟨ks, hks, hperm⟩ := FieldsAlike.comp_perm hperm.symm h.symm
      exact .obj hks hperm

theorem AllAlike.symm : {vs ws : List Value} → AllAlike vs ws → AllAlike ws vs
  | _, _, .nil => .nil
  | _, _, .cons h hrest => .cons h.symm hrest.symm

theorem FieldsAlike.symm : {fs gs : Fields} → FieldsAlike fs gs → FieldsAlike gs fs
  | _, _, .nil => .nil
  | _, _, .cons name h hrest => .cons name h.symm hrest.symm

end

mutual

theorem Alike.trans : {u v w : Value} → Alike u v → Alike v w → Alike u w
  | _, _, _, .refl _, h => h
  | _, _, _, .arr h, .refl _ => .arr h
  | _, _, _, .arr h, .arr h' => .arr (h.trans h')
  | _, _, _, .obj h hperm, .refl _ => .obj h hperm
  | _, _, _, .obj h hperm, .obj h' hperm' => by
      obtain ⟨ks, hks, hmid⟩ := FieldsAlike.comp_perm hperm h'
      exact .obj (h.trans hks) (hmid.trans hperm')

theorem AllAlike.trans : {us vs ws : List Value} → AllAlike us vs → AllAlike vs ws →
    AllAlike us ws
  | _, _, _, .nil, h => h
  | _, _, _, .cons h hrest, .cons h' hrest' => .cons (h.trans h') (hrest.trans hrest')

theorem FieldsAlike.trans : {fs gs hs : Fields} → FieldsAlike fs gs → FieldsAlike gs hs →
    FieldsAlike fs hs
  | _, _, _, .nil, h => h
  | _, _, _, .cons name h hrest, .cons _ h' hrest' => .cons name (h.trans h') (hrest.trans hrest')

end

theorem FieldsAlike.refl (fs : Fields) : FieldsAlike fs fs :=
  fieldsAlike_iff.mpr (List.forall₂_same.mpr fun f _ ↦ ⟨rfl, .refl f.2⟩)

theorem alike_obj_iff {fs gs : Fields} : Alike (.obj fs) (.obj gs) ↔ fs.Alike gs := by
  constructor
  · intro h
    cases h with
    | refl => exact ⟨fs, .refl fs, .refl fs⟩
    | obj h hperm => exact ⟨_, h, hperm⟩
  · rintro ⟨hs, h, hperm⟩
    exact .obj h hperm

end Equivalence

section Plainness

variable {admitted : Double → Prop}

theorem fieldsArePlain_of_perm {fs gs : Fields} (hperm : fs.Perm gs)
    (h : FieldsArePlain admitted gs) : FieldsArePlain admitted fs :=
  fieldsArePlain_iff.mpr fun f hf ↦ fieldsArePlain_iff.mp h f (hperm.mem_iff.mp hf)

mutual

theorem isPlain_of_alike : {v w : Value} → Alike v w → w.IsPlain admitted → v.IsPlain admitted
  | _, _, .refl _, hw => hw
  | _, _, .arr h, hw => by
      rw [IsPlain] at hw ⊢
      exact arePlain_of_allAlike h hw
  | _, _, .obj h hperm, hw => by
      rw [IsPlain] at hw ⊢
      rw [← h.map_fst, (hperm.map Prod.fst).nodup_iff]
      exact ⟨hw.1, fieldsArePlain_of_fieldsAlike h (fieldsArePlain_of_perm hperm hw.2)⟩

theorem arePlain_of_allAlike : {vs ws : List Value} → AllAlike vs ws → ArePlain admitted ws →
    ArePlain admitted vs
  | _, _, .nil, _ => trivial
  | _, _, .cons h hrest, hws => ⟨isPlain_of_alike h hws.1, arePlain_of_allAlike hrest hws.2⟩

theorem fieldsArePlain_of_fieldsAlike : {fs gs : Fields} → FieldsAlike fs gs →
    FieldsArePlain admitted gs → FieldsArePlain admitted fs
  | _, _, .nil, _ => trivial
  | _, _, .cons _ h hrest, hgs =>
      ⟨isPlain_of_alike h hgs.1, fieldsArePlain_of_fieldsAlike hrest hgs.2⟩

end

end Plainness

end Value

namespace Json

open Value

section Sorting

theorem sortedFields_perm (fs : Fields) :
    (sortedFields fs).Perm (fs.map fun f ↦ (f.1, sorted f.2)) := by
  induction fs with
  | nil => simp [sortedFields]
  | cons f fs ih =>
      obtain ⟨name, v⟩ := f
      rw [sortedFields, List.map_cons]
      exact (insertField_perm _ _).trans (ih.cons _)

/-- The order of fields does not count for the sorted ones. -/
theorem sortedFields_eq_of_perm {fs gs : Fields} (hnodup : (fs.map Prod.fst).Nodup)
    (hperm : fs.Perm gs) : sortedFields fs = sortedFields gs := by
  have hgs : (gs.map Prod.fst).Nodup := (hperm.map Prod.fst).nodup_iff.mp hnodup
  have hsame : (sortedFields fs).Perm (sortedFields gs) :=
    (sortedFields_perm fs).trans ((hperm.map _).trans (sortedFields_perm gs).symm)
  refine List.Perm.eq_of_pairwise ?_ (sortedFields_ascending hnodup) (sortedFields_ascending hgs)
    hsame
  intro f g _ _ hfg hgf
  exact (lt_asymm hfg hgf).elim

variable {admitted : Double → Prop}

mutual

theorem sorted_eq_of_alike : {v w : Value} → Alike v w → v.IsPlain admitted → sorted v = sorted w
  | _, _, .refl _, _ => rfl
  | _, _, .arr h, hplain => by
      rw [IsPlain] at hplain
      rw [sorted, sorted, sortedItems_eq_of_allAlike h hplain]
  | _, _, .obj h hperm, hplain => by
      rw [IsPlain] at hplain
      have hnames := hplain.1
      rw [← h.map_fst] at hnames
      rw [sorted, sorted, sortedFields_eq_of_fieldsAlike h hplain.2,
        sortedFields_eq_of_perm hnames hperm]

theorem sortedItems_eq_of_allAlike : {vs ws : List Value} → AllAlike vs ws →
    ArePlain admitted vs → sortedItems vs = sortedItems ws
  | _, _, .nil, _ => rfl
  | _, _, .cons h hrest, hplain => by
      rw [sortedItems, sortedItems, sorted_eq_of_alike h hplain.1,
        sortedItems_eq_of_allAlike hrest hplain.2]

theorem sortedFields_eq_of_fieldsAlike : {fs gs : Fields} → FieldsAlike fs gs →
    FieldsArePlain admitted fs → sortedFields fs = sortedFields gs
  | _, _, .nil, _ => rfl
  | _, _, .cons name h hrest, hplain => by
      rw [sortedFields, sortedFields, sorted_eq_of_alike h hplain.1,
        sortedFields_eq_of_fieldsAlike hrest hplain.2]

end

/-- Two values are the same but for the order of fields exactly when their sorted forms are equal. -/
theorem sorted_eq_sorted_iff {v w : Value} (hv : v.IsPlain admitted) :
    sorted v = sorted w ↔ v.Alike w := by
  constructor
  · intro h
    have hv := alike_sorted v
    rw [h] at hv
    exact hv.trans (alike_sorted w).symm
  · intro h
    exact sorted_eq_of_alike h hv

mutual

theorem isPlain_sorted : (v : Value) → v.IsPlain admitted → (sorted v).IsPlain admitted
  | .arr items, h => by
      rw [IsPlain] at h
      rw [sorted, IsPlain]
      exact arePlain_sortedItems items h
  | .obj fields, h => by
      rw [IsPlain] at h
      rw [sorted, IsPlain]
      exact ⟨nodup_sortedFields h.1, fieldsArePlain_sortedFields fields h.2⟩
  | .null, h | .bool _, h | .int _, h | .float _, h | .str _, h | .bytes _, h | .date _, h
  | .moment _, h => h

theorem arePlain_sortedItems : (vs : List Value) → ArePlain admitted vs →
    ArePlain admitted (sortedItems vs)
  | [], h => h
  | v :: rest, h => ⟨isPlain_sorted v h.1, arePlain_sortedItems rest h.2⟩

theorem fieldsArePlain_sortedFields : (fs : Fields) → FieldsArePlain admitted fs →
    FieldsArePlain admitted (sortedFields fs)
  | [], h => h
  | (name, v) :: rest, h => by
      have hrest := fieldsArePlain_sortedFields rest h.2
      rw [sortedFields, fieldsArePlain_iff]
      intro f hf
      rcases List.mem_cons.mp ((insertField_perm _ _).mem_iff.mp hf) with rfl | hf
      · exact isPlain_sorted v h.1
      · exact fieldsArePlain_iff.mp hrest f hf

end

end Sorting

section Writable

variable {admitted : Double → Prop}

mutual

theorem unwritable_of_isPlain : (v : Value) → v.IsPlain admitted → unwritable v = none
  | .arr items, h => by
      rw [unwritable, inItems_of_arePlain items h]
  | .obj fields, h => by
      rw [IsPlain] at h
      rw [unwritable, inFields_of_fieldsArePlain fields h.2]
  | .null, _ | .bool _, _ | .int _, _ | .float _, _ | .str _, _ => by simp [unwritable]
  | .bytes _, h | .date _, h | .moment _, h => h.elim

theorem inItems_of_arePlain : (vs : List Value) → ArePlain admitted vs →
    unwritable.inItems vs = none
  | [], _ => rfl
  | v :: rest, h => by
      rw [unwritable.inItems, unwritable_of_isPlain v h.1, inItems_of_arePlain rest h.2]
      rfl

theorem inFields_of_fieldsArePlain : (fs : Fields) → FieldsArePlain admitted fs →
    unwritable.inFields fs = none
  | [], _ => rfl
  | (name, v) :: rest, h => by
      rw [unwritable.inFields, unwritable_of_isPlain v h.1, inFields_of_fieldsArePlain rest h.2]
      rfl

end

theorem canonical_of_isPlain {v : Value} (h : v.IsPlain admitted) :
    canonical v = .ok (canonicalText v) := by
  rw [canonical, unwritable_of_isPlain v h]

end Writable

end Json

end SafeMarkdown
