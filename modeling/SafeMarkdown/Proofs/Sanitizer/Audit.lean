import SafeMarkdown.Proofs.Sanitizer.Losses

/-!
# The audit of a sanitizing run

The removals of a run on a tree without raw markup are all that it takes away, and nothing else. So
a run without removals leaves the tree as it was, up to the letter case of names and the joining of
texts.
-/

namespace SafeMarkdown

namespace Node

/-- Whether the attributes of a node that count as its id are texts. -/
def HasTextIds (n : Node) : Prop :=
  ∀ f ∈ n.attrs, n.attributeKey f.1 = "id" → f.2.str?.isSome = true

instance (n : Node) : Decidable n.HasTextIds :=
  inferInstanceAs (Decidable (∀ f ∈ n.attrs, n.attributeKey f.1 = "id" → f.2.str?.isSome = true))

mutual

/-- A tree with the tags and the attributes of its elements under lowercase names and with all texts
below its top joined. -/
def tidy : Node → Node
  | ⟨kind, tag, attrs, children, value, data⟩ =>
    if kind = .element then
      ⟨kind, some (Text.lowercase (tag.getD "")), attrs.map fun f ↦ (Text.lowercase f.1, f.2),
        mergeText (tidyAll children), value, data⟩
    else ⟨kind, tag, attrs, mergeText (tidyAll children), value, data⟩

def tidyAll : List Node → List Node
  | [] => []
  | n :: rest => tidy n :: tidyAll rest

end

end Node

namespace Sanitizer

open Node

variable {s : Schema} {reserved kept : List String} {n tree : Node} {ns : List Node}

section Ids

/-- Making ids distinct changes a node on its own and then the nodes below it. -/
theorem exists_idLoss (reserved kept : List String) (n : Node) : ∃ noted kept',
    IdLoss n.head (distinctIds reserved kept n).1.head noted ∧
    (distinctIds reserved kept n).1.children = (distinctIdsAll reserved kept' n.children).1 ∧
    (distinctIds reserved kept n).2.2 =
      noted ++ (distinctIdsAll reserved kept' n.children).2.2 := by
  cases hid : n.elementId? with
  | none =>
      rw [distinctIds_of_elementId?_eq_none hid]
      exact ⟨[], kept, .keeps n.head, rfl, rfl⟩
  | some id =>
      cases h : keepsId reserved kept (n.flagged "level") id with
      | true =>
          rw [distinctIds_of_keeps hid h]
          exact ⟨[], id :: kept, .keeps n.head, rfl, rfl⟩
      | false =>
          rw [distinctIds_of_loses hid h]
          have hhead : n.head.elementId? = some id := hid
          exact ⟨_, kept, .loses hhead, rfl, rfl⟩

theorem isText_distinctIds (reserved kept : List String) (n : Node) :
    (distinctIds reserved kept n).1.isText = n.isText := by
  obtain ⟨attrs, kept', -, heq⟩ := distinctIds_eq reserved kept n
  rw [heq]
  rfl

theorem distinctIds_of_isText (reserved kept : List String) (h : n.isText = true)
    (hchildren : n.children = []) : distinctIds reserved kept n = (n, kept, []) := by
  have hkind : n.kind = .text := kind_of_isText h
  have hid : n.elementId? = none := by simp [elementId?, hkind]
  rw [distinctIds_of_elementId?_eq_none hid, hchildren, distinctIdsAll, ← hchildren]
  exact congrArg (·, kept, []) (mk_eta n)

mutual

/-- Making ids distinct logs every id that a node loses. -/
theorem revised_distinctIds (reserved kept : List String) : (n : Node) → n.All IsLeafText →
    Revised IdLoss n.marks (distinctIds reserved kept n).1.marks (distinctIds reserved kept n).2.2
  | ⟨kind, tag, attrs, children, value, data⟩, hleaf => by
      rw [all_iff] at hleaf
      obtain ⟨noted, kept', hloss, hchildren, hlog⟩ :=
        exists_idLoss reserved kept ⟨kind, tag, attrs, children, value, data⟩
      cases htext : isText ⟨kind, tag, attrs, children, value, data⟩ with
      | true =>
          rw [distinctIds_of_isText reserved kept htext (hleaf.1 htext), marks_of_isText htext]
          exact .letters _
      | false =>
          rw [marks_of_not_isText htext,
            marks_of_not_isText ((isText_distinctIds reserved kept _).trans htext), hchildren, hlog]
          exact .node hloss (revised_distinctIdsAll reserved kept' children hleaf.2)

theorem revised_distinctIdsAll (reserved kept : List String) : (ns : List Node) →
    (∀ n ∈ ns, n.All IsLeafText) →
    Revised IdLoss (marksAll ns) (marksAll (distinctIdsAll reserved kept ns).1)
      (distinctIdsAll reserved kept ns).2.2
  | [], _ => by
      rw [distinctIdsAll]
      exact .nil
  | n :: rest, hleaf => by
      rw [List.forall_mem_cons] at hleaf
      rw [distinctIdsAll]
      dsimp only [marksAll]
      exact (revised_distinctIds reserved kept n hleaf.1).append
        (revised_distinctIdsAll reserved _ rest hleaf.2)

end

theorem IdLoss.eq_of_nil {m : Node} (h : IdLoss n m []) : m = n := by
  cases h
  rfl

theorem eq_of_head_eq {m : Node} (hhead : m.head = n.head) (hchildren : m.children = n.children) :
    m = n := by
  obtain ⟨kind, tag, attrs, children, value, data⟩ := n
  obtain ⟨kind', tag', attrs', children', value', data'⟩ := m
  simp_all [head]

mutual

/-- Where no id is lost, nothing changes. -/
theorem distinctIds_eq_self (reserved kept : List String) : (n : Node) →
    (distinctIds reserved kept n).2.2 = [] → (distinctIds reserved kept n).1 = n
  | ⟨kind, tag, attrs, children, value, data⟩, hnone => by
      obtain ⟨noted, kept', hloss, hchildren, hlog⟩ :=
        exists_idLoss reserved kept ⟨kind, tag, attrs, children, value, data⟩
      rw [hnone] at hlog
      obtain ⟨rfl, hbelow⟩ := List.append_eq_nil_iff.mp hlog.symm
      refine eq_of_head_eq hloss.eq_of_nil (hchildren.trans ?_)
      exact distinctIdsAll_eq_self reserved kept' children hbelow

theorem distinctIdsAll_eq_self (reserved kept : List String) : (ns : List Node) →
    (distinctIdsAll reserved kept ns).2.2 = [] → (distinctIdsAll reserved kept ns).1 = ns
  | [], _ => by
      rw [distinctIdsAll]
  | n :: rest, hnone => by
      rw [distinctIdsAll] at hnone ⊢
      obtain ⟨hfirst, hmore⟩ := List.append_eq_nil_iff.mp hnone
      exact congrArg₂ List.cons (distinctIds_eq_self reserved kept n hfirst)
        (distinctIdsAll_eq_self reserved _ rest hmore)

end

end Ids

section Tidy

theorem filtered_eq_tidy (hn : n.HasDistinctNames) (hnone : refused s n = []) :
    { filtered s n with children := mergeText (tidyAll n.children) } = tidy n := by
  have hkept : n.attrs.filter (keepsAttribute s n) = n.attrs := by
    rw [refused_eq, List.map_eq_nil_iff] at hnone
    rw [List.filter_eq_self]
    intro f hf
    simpa using List.filter_eq_nil_iff.mp hnone f hf
  have hattrs := attrs_filtered (s := s) hn
  rw [hkept] at hattrs
  obtain ⟨kind, tag, attrs, children, value, data⟩ := n
  cases kind with
  | element => exact congrArg (Node.mk _ _ · _ _ _) hattrs
  | component => exact congrArg (Node.mk _ _ · _ _ _) (hattrs.trans (List.map_id _))
  | _ => rfl

mutual

/-- Where nothing is logged, filtering makes a node tidy. -/
theorem filterNode_of_log_eq_nil : (n : Node) → Rawless n → n.All IsLeafText →
    n.All HasDistinctNames → (filterNode s n).2 = [] → (filterNode s n).1 = [tidy n]
  | ⟨kind, tag, attrs, children, value, data⟩, hraw, hleaf, hnames, hnone => by
      rw [Rawless, all_iff] at hraw
      rw [all_iff] at hleaf hnames
      cases htext : isText ⟨kind, tag, attrs, children, value, data⟩ with
      | true =>
          obtain rfl : kind = .text := kind_of_isText htext
          obtain rfl : children = [] := hleaf.1 htext
          rw [filterNode_of_isText htext]
          rfl
      | false =>
          cases hfate : fate s ⟨kind, tag, attrs, children, value, data⟩ with
          | dropped =>
              rw [filterNode_of_dropped hfate] at hnone
              cases hnone
          | givesWay =>
              rw [filterNode_of_givesWay hfate] at hnone
              cases hnone
          | stays =>
              rw [filterNode_of_stays hfate htext hraw.1] at hnone ⊢
              obtain ⟨hself, hbelow⟩ := List.append_eq_nil_iff.mp hnone
              dsimp only
              rw [filterAll_of_log_eq_nil children hraw.2 hleaf.2 hnames.2 hbelow]
              exact congrArg ([·]) (filtered_eq_tidy hnames.1 hself)

theorem filterAll_of_log_eq_nil : (ns : List Node) → (∀ n ∈ ns, Rawless n) →
    (∀ n ∈ ns, n.All IsLeafText) → (∀ n ∈ ns, n.All HasDistinctNames) →
    (filterAll s ns).2 = [] → (filterAll s ns).1 = tidyAll ns
  | [], _, _, _, _ => by
      rw [filterAll]
      rfl
  | n :: rest, hraw, hleaf, hnames, hnone => by
      rw [List.forall_mem_cons] at hraw hleaf hnames
      rw [filterAll] at hnone ⊢
      obtain ⟨hfirst, hmore⟩ := List.append_eq_nil_iff.mp hnone
      dsimp only
      rw [filterNode_of_log_eq_nil n hraw.1 hleaf.1 hnames.1 hfirst,
        filterAll_of_log_eq_nil rest hraw.2 hleaf.2 hnames.2 hmore]
      rfl

end

end Tidy

section Audit

/-- What sanitizing does to a node that stays, and what it notes about it. -/
structure AuditStep (s : Schema) (n m : Node) (noted : List Removal) : Prop where
  survives : Survives n m
  noted : noted = strips s n m

/-- Whether the removals of a run tell all that it takes away, and nothing else. -/
structure Audited (s : Schema) (tree out : Node) (removals : List Removal) : Prop where
  top : Survives tree out
  /-- Node by node, the result reads like what stays of the tree. -/
  log : ∃ stripped,
    Revised (AuditStep s) (leftover s tree.children) (marksAll out.children) stripped ∧
      removals.Perm ((droppedAll s tree.children).map dropRecord ++
        (unwrapped s tree.children).map unwrapRecord ++ (strips s tree out ++ stripped))
  text : out.textContent = (cut s tree).textContent
  tidy : removals = [] → out = { tree with children := mergeText (tidyAll tree.children) }

/-- Filtering and making ids distinct, taken as one pass. -/
theorem revised_audit {before mid after : List Mark} {log log' : List Removal}
    (hfilter : Revised (FilterStep s) before mid log) (hids : Revised IdLoss mid after log') :
    ∃ both, Revised (AuditStep s) before after both ∧ both.Perm (log ++ log') := by
  refine hfilter.trans ?_ hids
  intro n m k noted noted' hstep hloss
  obtain ⟨hsurvives, hperm⟩ := survives_of_step hstep hloss
  exact ⟨strips s n k, ⟨hsurvives, rfl⟩, hperm⟩

theorem letters_leftover (s : Schema) (ns : List Node) :
    (leftover s ns).filterMap Mark.letter? = (textContent.textOfAll (cutAll s ns)).toList := by
  rw [leftover, List.filterMap_filter, ← letters_marksAll]
  refine List.filterMap_congr fun m _ ↦ ?_
  cases m with
  | letter c => rfl
  | opens n => simp [Mark.letter?]
  | closes n => simp [Mark.letter?]

theorem textContent_of_isText (h : n.isText = true) : n.textContent = n.text := by
  obtain ⟨kind, tag, attrs, children, value, data⟩ := n
  obtain rfl : kind = .text := kind_of_isText h
  rw [textContent]
  rfl

theorem textContent_of_not_isText (h : n.isText = false) :
    n.textContent = textContent.textOfAll n.children := by
  obtain ⟨kind, tag, attrs, children, value, data⟩ := n
  have hkind : (kind == .text) = false := h
  rw [textContent, hkind]
  rfl

/-- A tree that reads like what stays of another one has its text outside of what is dropped. -/
theorem textContent_eq_cut {R : Node → Node → List Removal → Prop} {out : Node}
    {noted : List Removal} (hisText : out.isText = tree.isText) (hvalue : out.value = tree.value)
    (h : Revised R (leftover s tree.children) (marksAll out.children) noted) :
    out.textContent = (cut s tree).textContent := by
  have hcut : (cut s tree).isText = tree.isText := by
    rw [cut_eq]
    rfl
  cases htext : tree.isText with
  | true =>
      rw [textContent_of_isText (hisText.trans htext), textContent_of_isText (hcut.trans htext),
        text, text, hvalue, cut_eq]
  | false =>
      rw [textContent_of_not_isText (hisText.trans htext),
        textContent_of_not_isText (hcut.trans htext), ← String.toList_inj, ← letters_marksAll,
        h.letters_eq, letters_leftover, cut_eq]

theorem hasTextIds_filtered (h : n.HasTextIds) (children : List Node) :
    HasTextIds { filtered s n with children } := by
  intro f hf hkey
  have hkey : n.attributeKey f.1 = "id" := by
    rw [← hkey]
    exact congrFun (attributeKey_of_kind_eq (kind_filtered n)).symm f.1
  obtain ⟨kind, tag, attrs, others, value, data⟩ := n
  cases kind with
  | element =>
      obtain ⟨g, hg, rfl, -⟩ := exists_of_mem_filterAttributes f hf
      exact h g hg ((attributeKey_attributeKey _ g.1).symm.trans hkey)
  | component => exact h f (List.mem_filter.mp hf).1 hkey
  | _ => exact h f hf hkey

theorem hasTextId_of_hasTextIds (h : n.HasTextIds) : n.HasTextId := by
  unfold HasTextId
  cases hget : n.attrs.get? "id" with
  | none => rfl
  | some v => exact h ("id", v) (Fields.mem_of_get? hget) (attributeKey_id n)

/-- A tree before its ids are made distinct. -/
def filteredBelow (s : Schema) (tree : Node) : Node :=
  { tree with children := mergeText (filterAll s tree.children).1 }

/-- What filtering leaves of the form of a tree. -/
theorem all_filteredBelow (hraw : Rawless tree) (hleaf : tree.All IsLeafText)
    (hids : tree.All HasTextIds) :
    (filteredBelow s tree).All fun n ↦ n.HasTextIds ∧ n.IsLeafText := by
  have htree : tree.All fun n ↦ n.HasTextIds ∧ n.IsLeafText := fun n hn ↦ ⟨hids n hn, hleaf n hn⟩
  have htext (t : String) : (ofText t).HasTextIds ∧ (ofText t).IsLeafText :=
    ⟨List.forall_mem_nil _, fun _ ↦ rfl⟩
  have hstays (n : Node) (hn : n.HasTextIds ∧ n.IsLeafText) (hne : n.isText = false)
      (children : List Node) : HasTextIds { filtered s n with children } ∧
        IsLeafText { filtered s n with children } := by
    refine ⟨hasTextIds_filtered hn.1 children, fun h ↦ ?_⟩
    rw [isText, kind_filtered] at h
    exact absurd h (Bool.eq_false_iff.mp hne)
  rw [all_iff] at htree ⊢
  refine ⟨⟨htree.1.1, fun h ↦ ?_⟩,
    all_mergeText (all_filterAll htext hstays tree.children (all_iff.mp hraw).2 htree.2) htext⟩
  have hchildren : tree.children = [] := htree.1.2 h
  rw [filteredBelow, hchildren, filterAll]
  rfl

theorem sanitize_eq_of_rawless (hraw : Rawless tree)
    (h : reservedIds (filteredBelow s tree).walk = .ok reserved) :
    sanitize s tree = .ok ((distinctIds reserved [] (filteredBelow s tree)).1,
      (filterAll s tree.children).2 ++ (distinctIds reserved [] (filteredBelow s tree)).2.2) := by
  have hids : dedupeIds (filteredBelow s tree) =
      .ok ((distinctIds reserved [] (filteredBelow s tree)).1,
        (distinctIds reserved [] (filteredBelow s tree)).2.2) := by
    rw [dedupeIds, h]
    rfl
  exact sanitize_of_steps (admission_of_rawless (all_iff.mp hraw).2) rfl hids

theorem audited_distinctIds (reserved : List String) (hraw : Rawless tree)
    (hleaf : tree.All IsLeafText) (hids : tree.All HasTextIds)
    (hnames : tree.All HasDistinctNames) :
    Audited s tree (distinctIds reserved [] (filteredBelow s tree)).1
      ((filterAll s tree.children).2 ++
        (distinctIds reserved [] (filteredBelow s tree)).2.2) := by
  have hform := all_filteredBelow (s := s) hraw hleaf hids
  rw [Rawless, all_iff] at hraw
  rw [all_iff] at hleaf hnames hform
  obtain ⟨stripped, hfilter, hperm⟩ :=
    accounts_filterAll (s := s) tree.children hraw.2 hleaf.2 hnames.2
  obtain ⟨noted, kept, hloss, hchildren, hlog⟩ := exists_idLoss reserved [] (filteredBelow s tree)
  have hbelow := revised_distinctIdsAll reserved kept (filteredBelow s tree).children
    fun n hn m hm ↦ (hform.2 n hn m hm).2
  have hdistinct : (filteredBelow s tree).head.HasDistinctNames := hnames.1
  obtain ⟨hself, hnoted⟩ := survives_of_idLoss (s := s) hdistinct hloss
  have htop : Survives tree (distinctIds reserved [] (filteredBelow s tree)).1 :=
    ⟨hself.kind, hself.tag, hself.attrs, hself.value, hself.data⟩
  rw [← hchildren] at hbelow
  have hmarks : marksAll (filteredBelow s tree).children = marksAll (filterAll s tree.children).1 :=
    marksAll_mergeText _
  rw [hmarks] at hbelow
  obtain ⟨both, hboth, hstripped⟩ := revised_audit hfilter hbelow
  refine ⟨htop, ⟨both, hboth, ?_⟩, ?_, ?_⟩
  · have hstrips : (strips s tree (distinctIds reserved [] (filteredBelow s tree)).1).Perm noted :=
      hnoted
    rw [hlog]
    rw [List.perm_iff_count] at hperm hstrips hstripped ⊢
    intro r
    specialize hperm r
    specialize hstrips r
    specialize hstripped r
    simp only [List.count_append] at hperm hstripped ⊢
    omega
  · exact textContent_eq_cut (isText_distinctIds reserved [] _) htop.value hboth
  · intro hnone
    obtain ⟨hfirst, hmore⟩ := List.append_eq_nil_iff.mp hnone
    rw [distinctIds_eq_self reserved [] _ hmore, filteredBelow,
      filterAll_of_log_eq_nil tree.children hraw.2 hleaf.2 hnames.2 hfirst]

/-- The removals of a run on a tree without raw markup are all that it takes away. -/
theorem sanitize_audited (hraw : Rawless tree) (hleaf : tree.All IsLeafText)
    (hids : tree.All HasTextIds) (hnames : tree.All HasDistinctNames) :
    ∃ out removals, sanitize s tree = .ok (out, removals) ∧ Audited s tree out removals := by
  have htext : (filteredBelow s tree).All HasTextId :=
    fun n hn ↦ hasTextId_of_hasTextIds (all_filteredBelow hraw hleaf hids n hn).1
  obtain ⟨reserved, hreserved⟩ := exists_reservedIds htext
  exact ⟨_, _, sanitize_eq_of_rawless hraw hreserved,
    audited_distinctIds reserved hraw hleaf hids hnames⟩

instance (n : Node) : Decidable n.IsLeafText :=
  inferInstanceAs (Decidable (n.isText = true → n.children = []))

/-- A program inside of an element that gives way, and a paragraph with the id of a heading. -/
def blend : Node :=
  .root [.element "FONT" [] [.ofText "a", .element "Script" [] [.ofText "b"]], .ofText "c",
    .element "P" [("ID", .str "x"), ("onclick", .str "d"), ("Title", .str "e")] [],
    .element "h2" [("id", .str "x")] [] [("level", .int 2)]]

theorem sanitize_audited_blend : ∃ out removals, sanitize .standard blend = .ok (out, removals) ∧
    out.textContent = "ac" ∧ .drop (some "script") ∈ removals ∧ .unwrap "font" ∈ removals := by
  obtain ⟨out, removals, hrun, haudit⟩ := @sanitize_audited .standard blend (by decide +kernel)
    (by decide +kernel) (by decide +kernel) (by decide +kernel)
  obtain ⟨stripped, -, hperm⟩ := haudit.log
  have hdropped :
      (droppedAll .standard blend.children).map dropRecord = [.drop (some "script")] := by
    decide +kernel
  have hunwrapped : (unwrapped .standard blend.children).map unwrapRecord = [.unwrap "font"] := by
    decide +kernel
  rw [hdropped, hunwrapped] at hperm
  have htext : (cut .standard blend).textContent = "ac" := by decide +kernel
  exact ⟨out, removals, hrun, haudit.text.trans htext, hperm.mem_iff.mpr (by simp),
    hperm.mem_iff.mpr (by simp)⟩

end Audit

end Sanitizer

end SafeMarkdown
