import Mathlib.Data.List.Nodup
import SafeMarkdown.Proofs.Sanitizer.Bearers
import SafeMarkdown.Proofs.Sanitizer.Fates

/-!
# What a surviving node loses

Filtering refuses some attributes of a node that stays, and making ids distinct may take one more.
What both note about the node are the attributes that it does not have any more.
-/

namespace SafeMarkdown

namespace Node

/-- An attribute under the name that its name counts as. -/
def keyed (n : Node) (f : String × Value) : String × Value :=
  (n.attributeKey f.1, f.2)

/-- Whether a node has an attribute whose name counts as a certain one. -/
def hasKey (n : Node) (key : String) : Bool :=
  n.attrs.any fun f ↦ n.attributeKey f.1 == key

/-- The attributes of a node that are missing from another one. -/
def missing (n m : Node) : Fields :=
  n.attrs.filter fun f ↦ !m.hasKey (n.attributeKey f.1)

/-- Whether a node is what is left of another one, its children apart: some attributes are missing,
and the letter case of names of an element does not matter. -/
structure Survives (n m : Node) : Prop where
  kind : m.kind = n.kind
  tag : m.tag = n.tag ∨ n.kind = .element ∧ m.tag = some (Text.lowercase n.tagName)
  attrs : m.attrs.map m.keyed =
    (n.attrs.filter fun f ↦ m.hasKey (n.attributeKey f.1)).map n.keyed
  value : m.value = n.value
  data : m.data = n.data

variable {n m : Node} {f : String × Value} {q r : String × Value → Bool}

theorem attributeKey_attributeKey (n : Node) (name : String) :
    n.attributeKey (n.attributeKey name) = n.attributeKey name := by
  unfold attributeKey
  split
  · exact Text.lowercase_lowercase name
  · rfl

theorem attributeKey_id (n : Node) : n.attributeKey "id" = "id" := by
  unfold attributeKey
  split
  · exact lowercase_id
  · rfl

theorem attributeKey_of_kind_eq (h : m.kind = n.kind) : m.attributeKey = n.attributeKey := by
  funext name
  rw [attributeKey, attributeKey, h]

theorem keyed_of_kind_eq (h : m.kind = n.kind) : m.keyed = n.keyed := by
  funext f
  rw [keyed, keyed, attributeKey_of_kind_eq h]

theorem keyed_of_ne_element (h : n.kind ≠ .element) : n.keyed = id := by
  funext f
  rw [keyed, attributeKey, if_neg h]
  rfl

theorem map_keyed_map_keyed (n : Node) (fs : Fields) :
    (fs.map n.keyed).map n.keyed = fs.map n.keyed := by
  simp [keyed, attributeKey_attributeKey]

section Kept

variable (hn : n.HasDistinctNames)

include hn

theorem HasDistinctNames.eq_of_key_eq {g : String × Value} (hf : f ∈ n.attrs) (hg : g ∈ n.attrs)
    (h : n.attributeKey f.1 = n.attributeKey g.1) : f = g :=
  List.inj_on_of_nodup_map hn hf hg h

theorem HasDistinctNames.filter_eq_singleton (hf : f ∈ n.attrs) (hq : q f = true)
    (hall : ∀ g ∈ n.attrs, q g = true → n.attributeKey g.1 = n.attributeKey f.1) :
    n.attrs.filter q = [f] := by
  have hnodup : n.attrs.Nodup := hn.of_map
  rw [← List.perm_singleton, List.perm_ext_iff_of_nodup (hnodup.filter q) (List.nodup_singleton f)]
  intro g
  rw [List.mem_filter, List.mem_singleton]
  constructor
  · rintro ⟨hg, hgq⟩
    exact hn.eq_of_key_eq hg hf (hall g hg hgq)
  · rintro rfl
    exact ⟨hf, hq⟩

variable (hattrs : m.attrs.map m.keyed = (n.attrs.filter q).map n.keyed)

include hattrs

/-- What is left of the attributes is told by their names. -/
theorem HasDistinctNames.hasKey_eq (hf : f ∈ n.attrs) : m.hasKey (n.attributeKey f.1) = q f := by
  have hany : m.hasKey (n.attributeKey f.1) =
      (m.attrs.map m.keyed).any fun g ↦ g.1 == n.attributeKey f.1 := by
    simp [hasKey, keyed, List.any_map, Function.comp_def]
  rw [hany, hattrs, Bool.eq_iff_iff, List.any_eq_true]
  constructor
  · rintro ⟨_, hmem, hkey⟩
    obtain ⟨g, hg, rfl⟩ := List.mem_map.mp hmem
    obtain ⟨hg, hq⟩ := List.mem_filter.mp hg
    rwa [hn.eq_of_key_eq hf hg (beq_iff_eq.mp hkey).symm]
  · intro hq
    exact ⟨n.keyed f, List.mem_map_of_mem (List.mem_filter.mpr ⟨hf, hq⟩), beq_self_eq_true _⟩

theorem HasDistinctNames.missing_eq : missing n m = n.attrs.filter fun f ↦ !q f :=
  List.filter_congr fun f hf ↦ by rw [hn.hasKey_eq hattrs hf]

theorem HasDistinctNames.attrs_eq :
    m.attrs.map m.keyed = (n.attrs.filter fun f ↦ m.hasKey (n.attributeKey f.1)).map n.keyed := by
  rw [hattrs, List.filter_congr fun f hf ↦ hn.hasKey_eq hattrs hf]

end Kept

end Node

namespace Sanitizer

open Node

variable {s : Schema} {n m k : Node} {f : String × Value} {noted noted' : List Removal}

/-- Whether filtering keeps an attribute of a node that stays. -/
def keepsAttribute (s : Schema) (n : Node) (f : String × Value) : Bool :=
  match n.kind with
  | .element => staysAttribute s (Text.lowercase n.tagName) f
  | .component => allowsComponentAttribute f.1 f.2
  | _ => true

/-- The name under which a missing attribute is recorded. One that filtering has kept is an id that
was lost later, when its name had been changed. -/
def recordedName (s : Schema) (n : Node) (f : String × Value) : String :=
  if keepsAttribute s n f then n.attributeKey f.1 else f.1

/-- The records of all attributes that are missing from what is left of a node. -/
def strips (s : Schema) (n m : Node) : List Removal :=
  (missing n m).map fun f ↦ .stripAttribute m.tag (recordedName s n f)

/-- What making ids distinct does to a node, and what it notes about it. -/
inductive IdLoss : Node → Node → List Removal → Prop where
  | keeps (n : Node) : IdLoss n n []
  | loses {n : Node} {id : String} (hid : n.elementId? = some id) :
      IdLoss n { n with attrs := n.attrs.erase "id" } [.stripAttribute n.tag "id"]

section Filtered

theorem attrs_filtered (hn : n.HasDistinctNames) :
    (filtered s n).attrs = (n.attrs.filter (keepsAttribute s n)).map n.keyed := by
  obtain ⟨kind, tag, attrs, children, value, data⟩ := n
  cases kind with
  | element =>
      have hnodup : ((attrs.filter (staysAttribute s (Text.lowercase (tag.getD "")))).map
          fun f ↦ (Text.lowercase f.1, f.2)).map Prod.fst |>.Nodup := by
        rw [List.map_map]
        exact List.Nodup.sublist (List.filter_sublist.map _) hn
      simp only [filtered, filterAttributes_eq, tagName]
      exact Fields.ofList_of_nodup hnodup
  | component => exact (List.map_id _).symm
  | _ =>
      rw [keyed_of_ne_element (by simp), List.map_id]
      exact (List.filter_eq_self.mpr fun _ _ ↦ rfl).symm

theorem refused_eq (s : Schema) (n : Node) :
    refused s n = (n.attrs.filter fun f ↦ !keepsAttribute s n f).map
      fun f ↦ .stripAttribute (filtered s n).tag f.1 := by
  obtain ⟨kind, tag, attrs, children, value, data⟩ := n
  cases kind with
  | element => simp only [refused, filterAttributes_eq, filtered, keepsAttribute]
  | component => rfl
  | _ => simp [refused, keepsAttribute]

theorem map_keyed_filtered (hn : n.HasDistinctNames) :
    (filtered s n).attrs.map (filtered s n).keyed =
      (n.attrs.filter (keepsAttribute s n)).map n.keyed := by
  rw [keyed_of_kind_eq (kind_filtered n), attrs_filtered hn, map_keyed_map_keyed]

end Filtered

section Steps

/-- What is missing is what filtering refused and what was lost after it. -/
theorem filter_perm (fs : Fields) (p r : String × Value → Bool) :
    (fs.filter fun f ↦ !(p f && !r f)).Perm
      (fs.filter (fun f ↦ !p f) ++ fs.filter fun f ↦ p f && r f) := by
  have hsplit := List.filter_append_perm (fun f ↦ !p f) (fs.filter fun f ↦ !(p f && !r f))
  simp only [List.filter_filter] at hsplit
  have hrefused : (fun f ↦ !p f && !(p f && !r f)) = fun f ↦ !p f := by
    funext f
    cases p f <;> rfl
  have hlost : (fun f ↦ !!p f && !(p f && !r f)) = fun f ↦ p f && r f := by
    funext f
    cases p f <;> simp
  rw [hrefused, hlost] at hsplit
  exact hsplit.symm

/-- A node that loses its id notes it, besides what it noted before. -/
theorem strips_perm_of_lost (p r : String × Value → Bool) (hn : n.HasDistinctNames)
    (hattrs : k.attrs.map k.keyed = (n.attrs.filter fun f ↦ p f && !r f).map n.keyed)
    (hf : f ∈ n.attrs) (hlost : (p f && r f) = true)
    (hall : ∀ g ∈ n.attrs, (p g && r g) = true → n.attributeKey g.1 = n.attributeKey f.1) :
    (strips s n k).Perm (((n.attrs.filter fun f ↦ !p f) ++ [f]).map
      fun f ↦ .stripAttribute k.tag (recordedName s n f)) := by
  rw [strips, hn.missing_eq hattrs, ← hn.filter_eq_singleton hf hlost hall]
  exact (filter_perm n.attrs p r).map _

theorem exists_id_of_elementId? {id : String} (hid : n.elementId? = some id) :
    ∃ f ∈ n.attrs, f.1 = "id" :=
  ⟨_, Fields.mem_of_get? (get?_of_elementId? hid), rfl⟩

/-- What is noted about the top of a tree, which is not filtered. -/
theorem survives_of_idLoss (hn : n.HasDistinctNames) (h : IdLoss n m noted) :
    Survives n m ∧ (strips s n m).Perm noted := by
  cases h with
  | keeps =>
      have hattrs : n.attrs.map n.keyed = (n.attrs.filter fun _ ↦ true).map n.keyed := by
        rw [List.filter_eq_self.mpr fun _ _ ↦ rfl]
      refine ⟨⟨rfl, .inl rfl, hn.attrs_eq hattrs, rfl, rfl⟩, ?_⟩
      rw [strips, hn.missing_eq hattrs]
      simp
  | loses hid =>
      have hattrs : (n.attrs.erase "id").map n.keyed =
          (n.attrs.filter fun f ↦ true && !(f.1 == "id")).map n.keyed := rfl
      obtain ⟨f, hf, hname⟩ := exists_id_of_elementId? hid
      have hperm : (strips s n { n with attrs := n.attrs.erase "id" }).Perm _ :=
        strips_perm_of_lost (fun _ ↦ true) (fun f ↦ f.1 == "id") hn hattrs hf (by simp [hname])
          fun g _ hg ↦ by simp_all
      refine ⟨⟨rfl, .inl rfl, hn.attrs_eq hattrs, rfl, rfl⟩, hperm.trans ?_⟩
      simp [recordedName, hname, attributeKey_id]

theorem erase_filtered (hn : n.HasDistinctNames) : (filtered s n).attrs.erase "id" =
    (n.attrs.filter fun f ↦ keepsAttribute s n f && !(n.attributeKey f.1 == "id")).map n.keyed := by
  rw [attrs_filtered hn, Fields.erase, List.filter_map, List.filter_filter]
  congr 2
  funext f
  exact Bool.and_comm _ _

theorem tag_filtered (s : Schema) (n : Node) : (filtered s n).tag = n.tag ∨
    n.kind = .element ∧ (filtered s n).tag = some (Text.lowercase n.tagName) := by
  unfold filtered
  split
  · rename_i hkind
    exact .inr ⟨hkind, rfl⟩
  · exact .inl rfl
  · exact .inl rfl

theorem value_filtered (s : Schema) (n : Node) : (filtered s n).value = n.value := by
  unfold filtered
  split <;> rfl

theorem data_filtered (s : Schema) (n : Node) : (filtered s n).data = n.data := by
  unfold filtered
  split <;> rfl

theorem map_recordedName_refused (s : Schema) (n : Node) (tag : Option String) :
    ((n.attrs.filter fun f ↦ !keepsAttribute s n f).map
      fun f ↦ Removal.stripAttribute tag (recordedName s n f)) =
    (n.attrs.filter fun f ↦ !keepsAttribute s n f).map fun f ↦ .stripAttribute tag f.1 := by
  refine List.map_congr_left fun f hf ↦ ?_
  have hrefused : keepsAttribute s n f = false := by simpa using (List.mem_filter.mp hf).2
  rw [recordedName, hrefused, if_neg Bool.false_ne_true]

/-- What is noted about a node below the top. -/
theorem survives_of_step (hstep : FilterStep s n m noted) (hloss : IdLoss m k noted') :
    Survives n k ∧ (strips s n k).Perm (noted ++ noted') := by
  obtain ⟨-, hn, rfl, rfl⟩ := hstep
  have hkind := kind_filtered (s := s) n
  cases hloss with
  | keeps =>
      have hattrs := map_keyed_filtered (s := s) hn
      refine ⟨⟨hkind, tag_filtered s n, hn.attrs_eq hattrs, value_filtered s n,
        data_filtered s n⟩, ?_⟩
      rw [strips, hn.missing_eq hattrs, map_recordedName_refused, refused_eq, List.append_nil]
  | loses hid =>
      have hattrs : ((filtered s n).attrs.erase "id").map (filtered s n).keyed =
          (n.attrs.filter fun f ↦ keepsAttribute s n f && !(n.attributeKey f.1 == "id")).map
            n.keyed := by
        rw [keyed_of_kind_eq hkind, erase_filtered hn, map_keyed_map_keyed]
      obtain ⟨g, hg, hname⟩ := exists_id_of_elementId? hid
      rw [attrs_filtered hn] at hg
      obtain ⟨f, hf, rfl⟩ := List.mem_map.mp hg
      obtain ⟨hf, hkeeps⟩ := List.mem_filter.mp hf
      have hkey : n.attributeKey f.1 = "id" := hname
      have hperm :
          (strips s n { filtered s n with attrs := (filtered s n).attrs.erase "id" }).Perm _ :=
        strips_perm_of_lost _ (fun f ↦ n.attributeKey f.1 == "id") hn hattrs hf
          (by simp [hkeeps, hkey]) fun g _ hg ↦ by simp_all
      refine ⟨⟨hkind, tag_filtered s n, hn.attrs_eq hattrs, value_filtered s n,
        data_filtered s n⟩, hperm.trans ?_⟩
      rw [List.map_append, map_recordedName_refused, refused_eq]
      simp [recordedName, hkeeps, hkey]

end Steps

end Sanitizer

end SafeMarkdown
