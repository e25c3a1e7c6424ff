import SafeMarkdown.Proofs.Sanitizer.Descent
import SafeMarkdown.Proofs.Tree.Joined

/-!
# Trees without raw markup, and settled ones

Admission leaves no raw markup in a tree: among siblings it is resolved, and what takes its place,
texts, elements and the other siblings, is no raw markup. Where there is none, nothing is admitted
and nothing removed.

Raw markup brings ids that are texts, and neither filtering nor the removal of ids makes other ones
of them. So the outline of a sanitized document never meets an id that is no text.

Filtering brings a tree into a form that it leaves alone: components and elements that the schema
allows, with attributes that all may stay, among joined texts.
-/

namespace SafeMarkdown.Sanitizer

open Node

variable {n m : Node} {ns ms : List Node} {removals : List Removal}

section Fill

variable {P : Node → Prop} {slots : Slots}

/-- What holds of all texts and elements that markup makes, whatever they hold. -/
structure HoldsOfMarkup (P : Node → Prop) : Prop where
  text (s : String) : P (ofText s)
  element (name : String) (attrs : List (String × String)) (children : List Node) :
    P (Node.element name (attrs.map fun (n, v) ↦ (n, attributeOf name n v)) children)

mutual

theorem all_fill_layoutOf (hP : HoldsOfMarkup P) (hslots : ∀ s ∈ slots, s.2.All P) :
    (i : Html.Item) → (waiting : List String) →
    ∀ m ∈ Layout.fill.fillAll slots (layoutOf waiting i).1, m.All P
  | .text s, waiting => by
      rw [layoutOf]
      exact List.forall_mem_singleton.mpr (all_iff.mpr ⟨hP.text s, List.forall_mem_nil _⟩)
  | .markup, waiting => by
      rw [layoutOf]
      exact List.forall_mem_nil _
  | .element name attrs children, waiting => by
      rw [layoutOf]
      split
      · split
        · exact List.forall_mem_nil _
        · split
          · intro m hm
            simp only [Layout.fill.fillAll, Layout.fill, List.append_nil, Option.mem_toList] at hm
            obtain ⟨before, after, heq, -⟩ := List.lookup_eq_some_iff.mp hm
            exact hslots (_, m) (heq ▸ List.mem_append_right before List.mem_cons_self)
          · exact List.forall_mem_nil _
      · simp only [Layout.fill.fillAll, Layout.fill, List.append_nil]
        exact List.forall_mem_singleton.mpr (all_iff.mpr ⟨hP.element name attrs _,
          all_fill_layoutOfAll hP hslots children waiting⟩)

theorem all_fill_layoutOfAll (hP : HoldsOfMarkup P) (hslots : ∀ s ∈ slots, s.2.All P) :
    (items : List Html.Item) → (waiting : List String) →
    ∀ m ∈ Layout.fill.fillAll slots (layoutOfAll waiting items).1, m.All P
  | [], waiting => by
      rw [layoutOfAll]
      exact List.forall_mem_nil _
  | i :: rest, waiting => by
      rw [layoutOfAll]
      dsimp only
      rw [Layout.fillAll_append]
      exact List.forall_mem_append.mpr ⟨all_fill_layoutOf hP hslots i waiting,
        all_fill_layoutOfAll hP hslots rest _⟩

end

/-- What holds of the texts and elements that markup makes, and of all siblings that are no raw
markup, holds of all nodes after resolving. -/
theorem all_resolve (hP : HoldsOfMarkup P) (hns : ∀ n ∈ ns, n.isRaw = false → n.All P)
    (h : resolve ns = .ok (ms, removals)) :
    ∀ m ∈ ms, m.All P := by
  rw [resolve] at h
  split at h
  · obtain ⟨items, -, h⟩ := map_eq_ok.mp h
    obtain ⟨more, hrun⟩ := ofItems_run (slotsOf 0 ns) (structuredFrom 0 ns) [] items
    rw [among_structured] at hrun
    rw [hrun] at h
    cases h
    refine all_fill_layoutOfAll hP (fun s hs ↦ ?_) items _
    have hslot := (slotsOf_sublist 0 ns).subset (List.mem_map_of_mem hs)
    obtain ⟨hmem, hraw⟩ := List.mem_filter.mp hslot
    exact hns s.2 hmem (by simpa using hraw)
  · rename_i hraw
    cases h
    have hnone := List.any_eq_false.mp (Bool.eq_false_iff.mpr hraw)
    exact fun n hn ↦ hns n hn (by simpa using hnone n hn)

mutual

theorem all_admitBelow (hP : HoldsOfMarkup P)
    (hchildren : ∀ {n}, P n → ∀ children, P { n with children }) : (n : Node) → {m : Node} →
    {removals : List Removal} → n.All P → admitBelow n = .ok (m, removals) → m.All P
  | ⟨kind, tag, attrs, children, value, data⟩, m, removals, hn, h => by
      rw [admitBelow] at h
      split at h
      · cases h
        exact hn
      · obtain ⟨⟨mids, below⟩, hmids, h⟩ := bind_eq_ok.mp h
        obtain ⟨⟨nodes, here⟩, hnodes, h⟩ := bind_eq_ok.mp h
        cases h
        obtain ⟨hself, hbelow⟩ := all_iff.mp hn
        have hall := all_admitEach hP hchildren children hbelow hmids
        exact all_iff.mpr ⟨hchildren hself _, all_resolve hP (fun n hn _ ↦ hall n hn) hnodes⟩

theorem all_admitEach (hP : HoldsOfMarkup P)
    (hchildren : ∀ {n}, P n → ∀ children, P { n with children }) : (ns : List Node) →
    {ms : List Node} → {removals : List Removal} → (∀ n ∈ ns, n.All P) →
    admitEach ns = .ok (ms, removals) → ∀ m ∈ ms, m.All P
  | [], ms, removals, _, h => by
      cases h
      exact List.forall_mem_nil _
  | n :: rest, ms, removals, hns, h => by
      rw [List.forall_mem_cons] at hns
      rw [admitEach] at h
      obtain ⟨⟨m, first⟩, hm, h⟩ := bind_eq_ok.mp h
      obtain ⟨⟨others, more⟩, hothers, h⟩ := bind_eq_ok.mp h
      cases h
      exact List.forall_mem_cons.mpr ⟨all_admitBelow hP hchildren n hns.1 hm,
        all_admitEach hP hchildren rest hns.2 hothers⟩

end

/-- What holds of all nodes among some siblings, and of what markup makes, holds after admission. -/
theorem all_admission (hP : HoldsOfMarkup P)
    (hchildren : ∀ {n}, P n → ∀ children, P { n with children }) (hns : ∀ n ∈ ns, n.All P)
    (h : admission ns = .ok (ms, removals)) : ∀ m ∈ ms, m.All P := by
  obtain ⟨⟨mids, below⟩, hmids, h⟩ := bind_eq_ok.mp h
  obtain ⟨⟨nodes, here⟩, hnodes, h⟩ := bind_eq_ok.mp h
  cases h
  have hall := all_admitEach hP hchildren ns hns hmids
  exact all_resolve hP (fun n hn _ ↦ hall n hn) hnodes

end Fill

/-- Whether raw markup stands nowhere in a tree. -/
abbrev Rawless (n : Node) : Prop :=
  n.All fun m ↦ m.kind ≠ .raw

theorem rawless_ofText (s : String) : Rawless (ofText s) :=
  all_iff.mpr ⟨by simp [ofText], List.forall_mem_nil _⟩

theorem isRaw_of_rawless (h : Rawless n) : n.isRaw = false := by
  simpa [isRaw] using (all_iff.mp h).1

theorem rawless_resolve (hns : ∀ n ∈ ns, n.isRaw = false → Rawless n)
    (h : resolve ns = .ok (ms, removals)) : ∀ m ∈ ms, Rawless m :=
  all_resolve ⟨fun _ ↦ by simp [ofText], fun _ _ _ ↦ by simp [Node.element]⟩ hns h

mutual

theorem rawless_admitBelow : (n : Node) → {m : Node} → {removals : List Removal} →
    n.isRaw = false → admitBelow n = .ok (m, removals) → Rawless m
  | ⟨kind, tag, attrs, children, value, data⟩, m, removals, hraw, h => by
      have hkind : (kind == .raw) = false := hraw
      rw [admitBelow, hkind, if_neg Bool.false_ne_true] at h
      obtain ⟨⟨mids, below⟩, hmids, h⟩ := bind_eq_ok.mp h
      obtain ⟨⟨nodes, here⟩, hnodes, h⟩ := bind_eq_ok.mp h
      cases h
      exact all_iff.mpr ⟨by simpa [isRaw] using hraw,
        rawless_resolve (rawless_admitEach children hmids) hnodes⟩

theorem rawless_admitEach : (ns : List Node) → {ms : List Node} → {removals : List Removal} →
    admitEach ns = .ok (ms, removals) → ∀ m ∈ ms, m.isRaw = false → Rawless m
  | [], ms, removals, h => by
      cases h
      exact List.forall_mem_nil _
  | n :: rest, ms, removals, h => by
      rw [admitEach] at h
      obtain ⟨⟨m, first⟩, hm, h⟩ := bind_eq_ok.mp h
      obtain ⟨⟨others, more⟩, hothers, h⟩ := bind_eq_ok.mp h
      cases h
      refine List.forall_mem_cons.mpr ⟨fun hraw ↦ rawless_admitBelow n ?_ hm,
        rawless_admitEach rest hothers⟩
      have hbare : (bare m).isRaw = (bare n).isRaw := by rw [bare_admitBelow hm]
      exact hbare.symm.trans hraw

end

theorem rawless_admission (h : admission ns = .ok (ms, removals)) : ∀ m ∈ ms, Rawless m := by
  obtain ⟨⟨mids, below⟩, hmids, h⟩ := bind_eq_ok.mp h
  obtain ⟨⟨nodes, here⟩, hnodes, h⟩ := bind_eq_ok.mp h
  cases h
  exact rawless_resolve (rawless_admitEach ns hmids) hnodes

theorem resolve_of_rawless (h : ∀ n ∈ ns, Rawless n) : resolve ns = .ok (ns, []) := by
  have hraw : ns.any Node.isRaw = false :=
    List.any_eq_false.mpr fun n hn ↦ Bool.eq_false_iff.mp (isRaw_of_rawless (h n hn))
  rw [resolve, hraw]
  rfl

mutual

theorem admitBelow_of_rawless : (n : Node) → Rawless n → admitBelow n = .ok (n, [])
  | ⟨kind, tag, attrs, children, value, data⟩, h => by
      have hbelow := (all_iff.mp h).2
      have hkind : (kind == .raw) = false := isRaw_of_rawless h
      rw [admitBelow, hkind, if_neg Bool.false_ne_true, admitEach_of_rawless children hbelow]
      change (resolve children >>= fun r ↦ _) = _
      rw [resolve_of_rawless hbelow]
      rfl

theorem admitEach_of_rawless : (ns : List Node) → (∀ n ∈ ns, Rawless n) →
    admitEach ns = .ok (ns, [])
  | [], _ => rfl
  | n :: rest, h => by
      rw [List.forall_mem_cons] at h
      rw [admitEach, admitBelow_of_rawless n h.1, admitEach_of_rawless rest h.2]
      rfl

end

/-- Siblings without raw markup in them are admitted as they are. -/
theorem admission_of_rawless (h : ∀ n ∈ ns, Rawless n) : admission ns = .ok (ns, []) := by
  rw [admission, admitEach_of_rawless ns h]
  change (resolve ns >>= fun r ↦ _) = _
  rw [resolve_of_rawless h]
  rfl

section Filter

variable {s : Schema}

mutual

theorem rawless_filterNode : (n : Node) → Rawless n → ∀ m ∈ (filterNode s n).1, Rawless m
  | ⟨kind, tag, attrs, children, value, data⟩, h => by
      obtain ⟨hself, hbelow⟩ := all_iff.mp h
      have hchildren := all_mergeText (rawless_filterAll children hbelow)
        fun t ↦ (all_iff.mp (rawless_ofText t)).1
      rcases filterNode_cases s ⟨kind, tag, attrs, children, value, data⟩ with
        ⟨-, hout⟩ | hout | hout | ⟨tag', attrs', hout, -, -⟩
      · rw [hout]
        exact List.forall_mem_singleton.mpr h
      · rw [hout]
        exact List.forall_mem_nil _
      · rw [hout]
        exact hchildren
      · rw [hout]
        exact List.forall_mem_singleton.mpr (all_iff.mpr ⟨hself, hchildren⟩)

theorem rawless_filterAll : (ns : List Node) → (∀ n ∈ ns, Rawless n) →
    ∀ m ∈ (filterAll s ns).1, Rawless m
  | [], _ => by
      rw [filterAll]
      exact List.forall_mem_nil _
  | n :: rest, h => by
      rw [List.forall_mem_cons] at h
      rw [filterAll]
      exact List.forall_mem_append.mpr ⟨rawless_filterNode n h.1, rawless_filterAll rest h.2⟩

end

end Filter

mutual

theorem rawless_distinctIds (reserved kept : List String) : (n : Node) → Rawless n →
    Rawless (distinctIds reserved kept n).1
  | ⟨kind, tag, attrs, children, value, data⟩, h => by
      obtain ⟨hself, hbelow⟩ := all_iff.mp h
      obtain ⟨attrs', kept', -, heq⟩ :=
        distinctIds_eq reserved kept ⟨kind, tag, attrs, children, value, data⟩
      rw [heq]
      exact all_iff.mpr ⟨hself, rawless_distinctIdsAll reserved kept' children hbelow⟩

theorem rawless_distinctIdsAll (reserved kept : List String) : (ns : List Node) →
    (∀ n ∈ ns, Rawless n) → ∀ m ∈ (distinctIdsAll reserved kept ns).1, Rawless m
  | [], _ => by
      rw [distinctIdsAll]
      exact List.forall_mem_nil _
  | n :: rest, h => by
      rw [List.forall_mem_cons] at h
      rw [distinctIdsAll]
      exact List.forall_mem_cons.mpr
        ⟨rawless_distinctIds reserved kept n h.1, rawless_distinctIdsAll reserved _ rest h.2⟩

end

end SafeMarkdown.Sanitizer

namespace SafeMarkdown.Sanitizer

open Node

theorem exists_attributeOf_eq_str (tag value : String) {name : String}
    (h : Text.lowercase name = "id") : ∃ s, attributeOf tag name value = .str s := by
  have hclass : (name == "class") = false :=
    beq_eq_false_iff_ne.mpr fun heq ↦ lowercase_class_ne (heq ▸ h)
  unfold attributeOf
  rw [hclass]
  split
  · exact ⟨_, rfl⟩
  · exact ⟨_, rfl⟩

theorem holdsOfMarkup_idIsText : HoldsOfMarkup IdIsText where
  text := idIsText_ofText
  element := by
    intro name attrs children _ f hf hname
    obtain ⟨⟨n, v⟩, -, rfl⟩ := List.mem_map.mp hf
    exact exists_attributeOf_eq_str name v hname

theorem idIsText_admission {siblings nodes : List Node} {removals : List Removal}
    (hsiblings : ∀ n ∈ siblings, n.All IdIsText) (h : admission siblings = .ok (nodes, removals)) :
    ∀ n ∈ nodes, n.All IdIsText :=
  all_admission holdsOfMarkup_idIsText (fun h _ ↦ h.of_eq rfl rfl) hsiblings h

variable {s : Schema}

mutual

theorem idIsText_filterNode : (n : Node) → n.All IdIsText →
    ∀ m ∈ (filterNode s n).1, m.All IdIsText
  | ⟨kind, tag, attrs, children, value, data⟩, hn => by
      obtain ⟨hself, hbelow⟩ := all_iff.mp hn
      have hchildren := all_mergeText (idIsText_filterAll children hbelow) idIsText_ofText
      rcases filterNode_cases s ⟨kind, tag, attrs, children, value, data⟩ with
        ⟨-, h⟩ | h | h | ⟨tag', attrs', h, -, hattrs⟩
      · rw [h]
        exact List.forall_mem_singleton.mpr hn
      · rw [h]
        exact List.forall_mem_nil _
      · rw [h]
        exact hchildren
      · rw [h]
        refine List.forall_mem_singleton.mpr (all_iff.mpr ⟨?_, hchildren⟩)
        intro hkind f hf hname
        rw [hattrs hkind] at hf
        obtain ⟨g, hg, rfl, -⟩ := exists_of_mem_filterAttributes f hf
        rw [Text.lowercase_lowercase] at hname
        exact hself hkind g hg hname

theorem idIsText_filterAll : (ns : List Node) → (∀ n ∈ ns, n.All IdIsText) →
    ∀ m ∈ (filterAll s ns).1, m.All IdIsText
  | [], _ => by
      rw [filterAll]
      exact List.forall_mem_nil _
  | n :: rest, hns => by
      rw [List.forall_mem_cons] at hns
      rw [filterAll]
      exact List.forall_mem_append.mpr
        ⟨idIsText_filterNode n hns.1, idIsText_filterAll rest hns.2⟩

end

mutual

theorem idIsText_distinctIds (reserved kept : List String) : (n : Node) → n.All IdIsText →
    (distinctIds reserved kept n).1.All IdIsText
  | ⟨kind, tag, attrs, children, value, data⟩, hn => by
      obtain ⟨hself, hbelow⟩ := all_iff.mp hn
      obtain ⟨attrs', kept', hattrs, heq⟩ :=
        distinctIds_eq reserved kept ⟨kind, tag, attrs, children, value, data⟩
      rw [heq]
      exact all_iff.mpr ⟨fun hkind f hf ↦ hself hkind f (hattrs hf),
        idIsText_distinctIdsAll reserved kept' children hbelow⟩

theorem idIsText_distinctIdsAll (reserved kept : List String) : (ns : List Node) →
    (∀ n ∈ ns, n.All IdIsText) → ∀ m ∈ (distinctIdsAll reserved kept ns).1, m.All IdIsText
  | [], _ => by
      rw [distinctIdsAll]
      exact List.forall_mem_nil _
  | n :: rest, hns => by
      rw [List.forall_mem_cons] at hns
      rw [distinctIdsAll]
      exact List.forall_mem_cons.mpr
        ⟨idIsText_distinctIds reserved kept n hns.1, idIsText_distinctIdsAll reserved _ rest hns.2⟩

end

theorem idIsText_sanitize {tree out : Node} {removals : List Removal} (htree : tree.All IdIsText)
    (h : sanitize s tree = .ok (out, removals)) : out.All IdIsText := by
  obtain ⟨nodes, markup, reserved, hadmit, -, rfl⟩ := sanitize_eq_ok h
  obtain ⟨hself, hbelow⟩ := all_iff.mp htree
  refine idIsText_distinctIds reserved [] _ (all_iff.mpr ⟨hself.of_eq rfl rfl, ?_⟩)
  exact all_mergeText (idIsText_filterAll nodes (idIsText_admission hbelow hadmit)) idIsText_ofText

end SafeMarkdown.Sanitizer

namespace SafeMarkdown.Sanitizer

open Node

variable {s : Schema} {tag : String} {attrs : Fields} {n : Node} {ns : List Node}

/-- Whether a schema lets an attribute stay. -/
def staysAttribute (s : Schema) (tag : String) (f : String × Value) : Bool :=
  s.allowsAttribute tag f.1 && s.allowsUrl f.1 f.2

/-- One step of filtering the attributes of an element. -/
def filterAttribute (s : Schema) (tag : String) (acc : Fields × List Removal)
    (f : String × Value) : Fields × List Removal :=
  if staysAttribute s tag f then (acc.1.set (Text.lowercase f.1) f.2, acc.2)
  else (acc.1, acc.2 ++ [.stripAttribute (some tag) f.1])

theorem foldl_filterAttribute (s : Schema) (tag : String) (attrs kept : Fields)
    (removals : List Removal) : attrs.foldl (filterAttribute s tag) (kept, removals) =
      (((attrs.filter (staysAttribute s tag)).map fun f ↦ (Text.lowercase f.1, f.2)).foldl
          (fun acc f ↦ acc.set f.1 f.2) kept,
        removals ++ (attrs.filter fun f ↦ !staysAttribute s tag f).map
          fun f ↦ .stripAttribute (some tag) f.1) := by
  induction attrs generalizing kept removals with
  | nil => simp
  | cons f attrs ih =>
      rw [List.foldl_cons, filterAttribute]
      cases hs : staysAttribute s tag f with
      | true =>
          rw [if_pos rfl, ih, List.filter_cons_of_pos hs, List.filter_cons_of_neg (by simp [hs])]
          rfl
      | false =>
          rw [if_neg Bool.false_ne_true, ih, List.filter_cons_of_neg (by simp [hs]),
            List.filter_cons_of_pos (by simp [hs]), List.map_cons, List.append_assoc]
          rfl

theorem filterAttributes_eq (s : Schema) (tag : String) (attrs : Fields) :
    filterAttributes s tag attrs =
      (Fields.ofList ((attrs.filter (staysAttribute s tag)).map fun f ↦ (Text.lowercase f.1, f.2)),
        (attrs.filter fun f ↦ !staysAttribute s tag f).map
          fun f ↦ .stripAttribute (some tag) f.1) := by
  have hstep : filterAttributes s tag attrs = attrs.foldl (filterAttribute s tag) ([], []) := rfl
  rw [hstep, foldl_filterAttribute, List.nil_append]
  rfl

/-- Attributes with distinct lowercase names that may all stay. -/
structure SettledAttributes (s : Schema) (tag : String) (attrs : Fields) : Prop where
  nodup : (attrs.map Prod.fst).Nodup
  lowercase : ∀ f ∈ attrs, Text.lowercase f.1 = f.1
  stays : ∀ f ∈ attrs, staysAttribute s tag f = true

theorem SettledAttributes.of_sublist {attrs' : Fields} (h : SettledAttributes s tag attrs)
    (hsub : attrs'.Sublist attrs) : SettledAttributes s tag attrs' where
  nodup := h.nodup.sublist (hsub.map Prod.fst)
  lowercase := fun f hf ↦ h.lowercase f (hsub.subset hf)
  stays := fun f hf ↦ h.stays f (hsub.subset hf)

theorem settledAttributes_filterAttributes (s : Schema) (tag : String) (attrs : Fields) :
    SettledAttributes s tag (filterAttributes s tag attrs).1 where
  nodup := by
    rw [filterAttributes_eq]
    exact Fields.nodup_ofList _
  lowercase := by
    intro f hf
    obtain ⟨g, -, rfl, -⟩ := exists_of_mem_filterAttributes f hf
    exact Text.lowercase_lowercase g.1
  stays := by
    intro f hf
    obtain ⟨g, -, rfl, hallowed, hurl⟩ := exists_of_mem_filterAttributes f hf
    rw [staysAttribute, Bool.and_eq_true]
    refine ⟨?_, ?_⟩
    · simpa [Schema.allowsAttribute] using hallowed
    · simpa [Schema.allowsUrl] using hurl

theorem SettledAttributes.filterAttributes_eq_self (h : SettledAttributes s tag attrs) :
    filterAttributes s tag attrs = (attrs, []) := by
  have hnone : (attrs.filter fun f ↦ !staysAttribute s tag f) = [] :=
    List.filter_eq_nil_iff.mpr fun f hf ↦ by simp [h.stays f hf]
  have hsame : (attrs.map fun f ↦ (Text.lowercase f.1, f.2)) = attrs := by
    refine (List.map_congr_left fun f hf ↦ ?_).trans (List.map_id attrs)
    rw [h.lowercase f hf]
    rfl
  rw [filterAttributes_eq, List.filter_eq_self.mpr h.stays, hsame, hnone,
    Fields.ofList_of_nodup h.nodup]
  rfl

theorem filterComponentAttributes_eq_self {tag : Option String}
    (h : ∀ f ∈ attrs, allowsComponentAttribute f.1 f.2 = true) :
    filterComponentAttributes tag attrs = (attrs, []) := by
  have hnone : (attrs.filter fun f ↦ !allowsComponentAttribute f.1 f.2) = [] :=
    List.filter_eq_nil_iff.mpr fun f hf ↦ by simp [h f hf]
  rw [filterComponentAttributes, List.filter_eq_self.mpr h, hnone]
  rfl

/-- A node that a schema leaves as it is, with all that is below it; below a text nothing counts. -/
inductive Settled (s : Schema) : Node → Prop
  | text {tag : Option String} {attrs : Fields} {children : List Node} {value : Option String}
      {data : Fields} : Settled s ⟨.text, tag, attrs, children, value, data⟩
  | component {tag : Option String} {attrs : Fields} {children : List Node} {value : Option String}
      {data : Fields} (hsafe : unsafeTags.contains (Text.lowercase (tag.getD "")) = false)
      (hattrs : ∀ f ∈ attrs, allowsComponentAttribute f.1 f.2 = true) (hjoined : Joined children)
      (hbelow : ∀ n ∈ children, Settled s n) :
      Settled s ⟨.component, tag, attrs, children, value, data⟩
  | root {tag : Option String} {attrs : Fields} {children : List Node} {value : Option String}
      {data : Fields} (hjoined : Joined children) (hbelow : ∀ n ∈ children, Settled s n) :
      Settled s ⟨.root, tag, attrs, children, value, data⟩
  | element {name : String} {attrs : Fields} {children : List Node} {value : Option String}
      {data : Fields} (hname : Text.lowercase name = name) (hallowed : s.allowsTag name = true)
      (hattrs : SettledAttributes s name attrs) (hjoined : Joined children)
      (hbelow : ∀ n ∈ children, Settled s n) :
      Settled s ⟨.element, some name, attrs, children, value, data⟩

theorem settled_ofText (t : String) : Settled s (ofText t) :=
  .text

theorem settled_mergeText (h : ∀ n ∈ ns, Settled s n) : ∀ n ∈ mergeText ns, Settled s n := by
  intro n hn
  rcases mem_mergeText hn with hn | ⟨t, rfl⟩
  · exact h n hn
  · exact settled_ofText t

mutual

/-- Filtering settles a node. -/
theorem settled_filterNode (s : Schema) : (n : Node) → ∀ m ∈ (filterNode s n).1, Settled s m
  | ⟨kind, tag, attrs, children, value, data⟩ => by
      have hbelow := settled_mergeText (settled_filterAll s children)
      have hjoined := joined_mergeText (filterAll s children).1
      cases kind with
      | text =>
          rw [filterNode]
          exact List.forall_mem_singleton.mpr .text
      | raw =>
          rw [filterNode]
          exact List.forall_mem_nil _
      | root =>
          rw [filterNode]
          exact List.forall_mem_singleton.mpr (.root hjoined hbelow)
      | component =>
          rw [filterNode]
          split
          · exact List.forall_mem_nil _
          · rename_i hsafe
            refine List.forall_mem_singleton.mpr
              (.component (Bool.eq_false_iff.mpr hsafe) (fun f hf ↦ ?_) hjoined hbelow)
            exact (List.mem_filter.mp hf).2
      | element =>
          rw [filterNode]
          dsimp only
          split
          · rename_i hallowed
            exact List.forall_mem_singleton.mpr (.element (Text.lowercase_lowercase _) hallowed
              (settledAttributes_filterAttributes s _ attrs) hjoined hbelow)
          · split
            · exact List.forall_mem_nil _
            · exact hbelow

theorem settled_filterAll (s : Schema) : (ns : List Node) → ∀ m ∈ (filterAll s ns).1, Settled s m
  | [] => by
      rw [filterAll]
      exact List.forall_mem_nil _
  | n :: rest => by
      rw [filterAll]
      exact List.forall_mem_append.mpr ⟨settled_filterNode s n, settled_filterAll s rest⟩

end

theorem filterAll_of_forall (h : ∀ n ∈ ns, filterNode s n = ([n], [])) :
    filterAll s ns = (ns, []) := by
  induction ns with
  | nil => rw [filterAll]
  | cons n ns ih =>
      rw [List.forall_mem_cons] at h
      rw [filterAll, h.1, ih h.2]
      rfl

/-- Filtering leaves a settled node alone. -/
theorem filterNode_of_settled (h : Settled s n) : filterNode s n = ([n], []) := by
  induction h with
  | text => rw [filterNode]
  | component hsafe hattrs hjoined hbelow ih =>
      rw [filterNode, hsafe, if_neg Bool.false_ne_true, filterComponentAttributes_eq_self hattrs,
        filterAll_of_forall ih]
      dsimp only
      rw [mergeText_of_joined hjoined]
      rfl
  | root hjoined hbelow ih =>
      rw [filterNode, filterAll_of_forall ih]
      dsimp only
      rw [mergeText_of_joined hjoined]
  | element hname hallowed hattrs hjoined hbelow ih =>
      rw [filterNode, Option.getD_some, hname, hallowed, if_pos rfl,
        hattrs.filterAttributes_eq_self, filterAll_of_forall ih]
      dsimp only
      rw [mergeText_of_joined hjoined]
      rfl

theorem filterChildren_of_settled (hjoined : Joined ns) (h : ∀ n ∈ ns, Settled s n) :
    filterChildren s ns = (ns, []) := by
  rw [filterChildren, filterAll_of_forall fun n hn ↦ filterNode_of_settled (h n hn)]
  dsimp only
  rw [mergeText_of_joined hjoined]

end SafeMarkdown.Sanitizer
