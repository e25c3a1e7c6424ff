import SafeMarkdown.Proofs.Json.Scalars
import SafeMarkdown.Proofs.Tree.Stored

/-!
# Trees as they are stored

Storing a tree replaces its doubles that are not finite, and nothing else, and the tree that is left
is written in the same text. Whatever is read from a JSON text can be stored and read again: once it
has been stored it is a value of JSON.
-/

namespace SafeMarkdown.Json

open Node Value

/-- Whether a value of JSON is stored for a value. -/
def StoresJson (v : Value) : Prop :=
  (storable v).IsJson

section Parts

variable {vs : List Value} {fs : Fields}

theorem areJson_storableItems (h : ∀ v ∈ vs, StoresJson v) : AreJson (storableItems vs) := by
  induction vs with
  | nil => trivial
  | cons v vs ih =>
      rw [List.forall_mem_cons] at h
      exact ⟨h.1, ih h.2⟩

theorem map_fst_storableFields (fs : Fields) :
    (storableFields fs).map Prod.fst = fs.map Prod.fst := by
  induction fs with
  | nil => rfl
  | cons f fs ih =>
      obtain ⟨name, v⟩ := f
      exact congrArg (name :: ·) ih

theorem isJson_storableFields (hnames : (fs.map Prod.fst).Nodup) (h : ∀ f ∈ fs, StoresJson f.2) :
    Fields.IsJson (storableFields fs) := by
  refine ⟨by rwa [map_fst_storableFields], ?_⟩
  clear hnames
  induction fs with
  | nil => trivial
  | cons f fs ih =>
      obtain ⟨name, v⟩ := f
      rw [List.forall_mem_cons] at h
      exact ⟨h.1, ih h.2⟩

theorem storesJson_arr (h : ∀ v ∈ vs, StoresJson v) : StoresJson (.arr vs) := by
  rw [StoresJson, storable, Value.IsJson]
  exact areJson_storableItems h

theorem storesJson_obj (h : ∀ f ∈ fs, StoresJson f.2) : StoresJson (.obj (Fields.ofList fs)) := by
  rw [StoresJson, storable, Value.IsJson]
  exact isJson_storableFields (Fields.nodup_ofList fs) fun f hf ↦ h f (Fields.mem_ofList hf)

theorem storesJson_float (x : Double) : StoresJson (.float x) := by
  cases x with
  | finite negative rank => exact ⟨negative, rank, rfl⟩
  | infinite negative => exact trivial
  | nan => exact trivial

end Parts

section Numbers

variable {ds : List Char}

theorem natOf_lt (h : ∀ c ∈ ds, isDigit c = true) : natOf ds < 10 ^ ds.length := by
  have hfold (k : Nat) :
      ds.foldl (fun n c ↦ n * 10 + (c.toNat - 48)) k < (k + 1) * 10 ^ ds.length := by
    induction ds generalizing k with
    | nil => simp
    | cons c ds ih =>
        rw [List.forall_mem_cons] at h
        have hc : c.toNat ≤ 57 := by
          have hdigit := h.1
          rw [isDigit, Bool.and_eq_true, decide_eq_true_eq, decide_eq_true_eq] at hdigit
          exact hdigit.2
        have hstep : k * 10 + (c.toNat - 48) + 1 ≤ (k + 1) * 10 := by omega
        rw [List.foldl_cons, List.length_cons, Nat.pow_succ', ← Nat.mul_assoc]
        exact (ih h.2 _).trans_le (Nat.mul_le_mul_right _ hstep)
  have hzero := hfold 0
  rwa [Nat.zero_add, Nat.one_mul] at hzero

/-- A number has no more digits than it is written with. -/
theorem length_toDigits_natOf {most : Nat} (hds : ∀ c ∈ ds, isDigit c = true) (hmost : 0 < most)
    (hlength : ds.length ≤ most) : (Nat.toDigits 10 (natOf ds)).length ≤ most :=
  Nat.toDigits_length 10 _ most hmost
    ((natOf_lt hds).trans_le (Nat.pow_le_pow_right (Nat.succ_pos 9) hlength))

theorem storesJson_int (negative : Bool) (hds : ∀ c ∈ ds, isDigit c = true)
    (hlength : ds.length ≤ 4300) :
    StoresJson (.int (if negative then -(natOf ds : Int) else natOf ds)) := by
  have habs : (if negative then -(natOf ds : Int) else natOf ds).natAbs = natOf ds := by
    cases negative with
    | true => exact Int.natAbs_neg _
    | false => rfl
  have hdigits := length_toDigits_natOf hds (Nat.succ_pos _) hlength
  rw [← habs] at hdigits
  exact hdigits

theorem storesJson_unsignedNumber {negative : Bool} {s : List Char} {r : Value × List Char}
    (h : unsignedNumber negative s = some r) : StoresJson r.1 := by
  unfold unsignedNumber at h
  split at h
  rename_i whole rest heq
  have hwhole : ∀ c ∈ whole, isDigit c = true := by
    split at heq
    · cases heq
      exact List.forall_mem_singleton.mpr (by decide)
    · cases heq
      exact List.all_eq_true.mp List.all_takeWhile
  split at h
  · cases h
  · dsimp only at h
    split at h
    · split at h
      · split at h
        · cases h
        · rename_i hlength
          cases h
          exact storesJson_int negative hwhole (Nat.not_lt.mp hlength)
      · cases h
        exact storesJson_float _
    · cases h
      exact storesJson_float _

end Numbers

section Values

variable {s : List Char}

theorem storesJson_number {r : Value × List Char} (h : number s = some r) : StoresJson r.1 := by
  unfold number at h
  split at h
  · split at h
    · cases h
      exact storesJson_float _
    · exact storesJson_unsignedNumber h
  · exact storesJson_unsignedNumber h

theorem storesJson_word {r : Value × List Char} (h : word s = some r) : StoresJson r.1 := by
  have hfirst {w : String} {v : Value} (h : (afterWord w s).map (v, ·) = some r)
      (hv : StoresJson v) : StoresJson r.1 := by
    obtain ⟨after, -, rfl⟩ := Option.map_eq_some_iff.mp h
    exact hv
  rw [word] at h
  rcases Option.or_eq_some_iff.mp h with h | ⟨-, h⟩
  · exact hfirst h trivial
  · rcases Option.or_eq_some_iff.mp h with h | ⟨-, h⟩
    · exact hfirst h trivial
    · rcases Option.or_eq_some_iff.mp h with h | ⟨-, h⟩
      · exact hfirst h trivial
      · rcases Option.or_eq_some_iff.mp h with h | ⟨-, h⟩
        · exact hfirst h trivial
        · rcases Option.or_eq_some_iff.mp h with h | ⟨-, h⟩
          · exact hfirst h trivial
          · exact storesJson_number h

/-- What a round of the reader reads holds, from the rounds after it. -/
theorem storesJson_read (fuel : Nat) :
    (∀ {s r}, value fuel s = some r → StoresJson r.1) ∧
      (∀ {s r}, items fuel s = some r → ∀ v ∈ r.1, StoresJson v) ∧
      ∀ {s r}, members fuel s = some r → ∀ f ∈ r.1, StoresJson f.2 := by
  induction fuel with
  | zero => exact ⟨nofun, nofun, nofun⟩
  | succ fuel ih =>
      obtain ⟨hvalue, hitems, hmembers⟩ := ih
      refine ⟨?_, ?_, ?_⟩
      · intro s r h
        rw [value.eq_def] at h
        dsimp only at h
        split at h
        · obtain ⟨found, -, rfl⟩ := Option.map_eq_some_iff.mp h
          exact trivial
        · split at h
          · cases h
            exact storesJson_arr (List.forall_mem_nil _)
          · obtain ⟨found, hfound, rfl⟩ := Option.map_eq_some_iff.mp h
            exact storesJson_arr (hitems hfound)
        · split at h
          · cases h
            exact storesJson_obj (List.forall_mem_nil _)
          · obtain ⟨found, hfound, rfl⟩ := Option.map_eq_some_iff.mp h
            exact storesJson_obj (hmembers hfound)
        · exact storesJson_word h
      · intro s r h
        rw [items] at h
        obtain ⟨⟨v, rest⟩, hv, h⟩ := Option.bind_eq_some_iff.mp h
        dsimp only at h
        split at h
        · obtain ⟨⟨vs, after⟩, hvs, h⟩ := Option.bind_eq_some_iff.mp h
          cases h
          exact List.forall_mem_cons.mpr ⟨hvalue hv, hitems hvs⟩
        · cases h
          exact List.forall_mem_singleton.mpr (hvalue hv)
        · cases h
      · intro s r h
        rw [members.eq_def] at h
        dsimp only at h
        split at h
        · obtain ⟨⟨name, named⟩, -, h⟩ := Option.bind_eq_some_iff.mp h
          dsimp only at h
          split at h
          · obtain ⟨⟨v, rest⟩, hv, h⟩ := Option.bind_eq_some_iff.mp h
            dsimp only at h
            split at h
            · obtain ⟨⟨fs, after⟩, hfs, h⟩ := Option.bind_eq_some_iff.mp h
              cases h
              exact List.forall_mem_cons.mpr ⟨hvalue hv, hmembers hfs⟩
            · cases h
              exact List.forall_mem_singleton.mpr (hvalue hv)
            · cases h
          · cases h
        · cases h

/-- What is read from a JSON text is stored as a value of JSON. -/
theorem storesJson_of_parse? {v : Value} (h : parse? s = some v) : StoresJson v := by
  obtain ⟨⟨w, rest⟩, hread, h⟩ := Option.bind_eq_some_iff.mp h
  dsimp only at h
  split at h
  · cases h
    exact (storesJson_read _).1 hread
  · cases h

end Values

end SafeMarkdown.Json

namespace SafeMarkdown.Node

mutual

theorem storable_storable : (v : Value) → storable (storable v) = storable v
  | .arr items => by
      rw [storable, storable, storableItems_storableItems items]
  | .obj fields => by
      rw [storable, storable, storableFields_storableFields fields]
  | .float (.finite _ _) | .float (.infinite _) | .float .nan => rfl
  | .null | .bool _ | .int _ | .str _ | .bytes _ | .date _ | .moment _ => rfl

theorem storableItems_storableItems : (vs : List Value) →
    storableItems (storableItems vs) = storableItems vs
  | [] => rfl
  | v :: rest => by
      rw [storableItems, storableItems, storable_storable v, storableItems_storableItems rest]

theorem storableFields_storableFields : (fs : List (String × Value)) →
    storableFields (storableFields fs) = storableFields fs
  | [] => rfl
  | (name, v) :: rest => by
      rw [storableFields, storableFields, storable_storable v, storableFields_storableFields rest]

end

theorem isEmpty_storableFields (fs : Fields) : (storableFields fs).isEmpty = fs.isEmpty := by
  cases fs <;> rfl

mutual

/-- A tree without doubles that are not finite. -/
def asStored : Node → Node
  | ⟨kind, tag, attrs, children, value, data⟩ =>
    ⟨kind, tag, storableFields attrs, asStoredAll children, value, storableFields data⟩

def asStoredAll : List Node → List Node
  | [] => []
  | n :: rest => asStored n :: asStoredAll rest

end

theorem isEmpty_asStoredAll (ns : List Node) : (asStoredAll ns).isEmpty = ns.isEmpty := by
  cases ns with
  | nil => rfl
  | cons n rest => rw [asStoredAll, List.isEmpty_cons, List.isEmpty_cons]

mutual

theorem toValue_asStored : (n : Node) → n.asStored.toValue = n.toValue
  | ⟨kind, tag, attrs, children, value, data⟩ => by
      rw [asStored, toValue, toValue, storableFields_storableFields, storableFields_storableFields,
        isEmpty_storableFields, isEmpty_storableFields, isEmpty_asStoredAll,
        toValues_asStoredAll children]

theorem toValues_asStoredAll : (ns : List Node) →
    toValue.toValues (asStoredAll ns) = toValue.toValues ns
  | [] => by rw [asStoredAll]
  | n :: rest => by
      rw [asStoredAll, toValue.toValues, toValue.toValues, toValue_asStored n,
        toValues_asStoredAll rest]

end

theorem canonicalText_asStored (n : Node) : n.asStored.canonicalText = n.canonicalText := by
  rw [canonicalText, canonicalText, toValue_asStored]

/-- A node that is stored with values of JSON. -/
structure StoresJson (n : Node) : Prop where
  attrs : Fields.IsJson (storableFields n.attrs)
  data : Fields.IsJson (storableFields n.data)

mutual

theorem isJson_asStored : (n : Node) → n.All StoresJson → n.asStored.All IsJson
  | ⟨kind, tag, attrs, children, value, data⟩, h => by
      obtain ⟨⟨hattrs, hdata⟩, hchildren⟩ := all_iff.mp h
      rw [asStored]
      exact all_children_iff.mpr ⟨⟨hattrs, hdata⟩, isJson_asStoredAll children hchildren⟩

theorem isJson_asStoredAll : (ns : List Node) → (∀ n ∈ ns, n.All StoresJson) →
    ∀ n ∈ asStoredAll ns, n.All IsJson
  | [], _ => by
      rw [asStoredAll]
      exact List.forall_mem_nil _
  | n :: rest, h => by
      rw [List.forall_mem_cons] at h
      rw [asStoredAll, List.forall_mem_cons]
      exact ⟨isJson_asStored n h.1, isJson_asStoredAll rest h.2⟩

end

end SafeMarkdown.Node
