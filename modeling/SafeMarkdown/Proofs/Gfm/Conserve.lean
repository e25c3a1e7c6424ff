import SafeMarkdown.Proofs.Gfm.Changes
import SafeMarkdown.Proofs.Tree.Conserve

/-!
# Enriching conserves what a tree holds

The pieces of a text spell it, so linking URLs keeps every letter. A task loses the three letters of
the checkbox that it starts with, and nothing else.
-/

namespace SafeMarkdown.Gfm

open Node

section Links

def Piece.chars : Piece → List Char
  | char c => [c]
  | link url => url

theorem pieces_chars (before : Option Char) (s : List Char) :
    (pieces before s).flatMap Piece.chars = s := by
  induction before, s using pieces.induct with
  | case1 before => simp [pieces]
  | case2 before c rest n hn ih =>
      rw [pieces]
      simp only [n] at hn
      rw [if_pos hn, List.flatMap_cons, ih]
      rfl
  | case3 before c rest n hn url ih =>
      rw [pieces]
      simp only [n] at hn
      rw [if_neg hn, List.flatMap_cons, ih]
      change c :: rest.take _ ++ _ = _
      rw [List.cons_append, List.take_append_drop]

theorem spell_textNodes (pending : List Char) : Spell pending.reverse (textNodes pending) := by
  unfold textNodes
  split
  · rename_i hempty
    rw [List.isEmpty_iff.mp hempty]
    exact .nil
  · exact .ofText _

theorem spell_nodesOf (ps : List Piece) (pending : List Char) :
    Spell (pending.reverse ++ ps.flatMap Piece.chars) (nodesOf pending ps) := by
  induction ps generalizing pending with
  | nil =>
      rw [List.flatMap_nil, List.append_nil]
      exact spell_textNodes pending
  | cons p ps ih =>
      cases p with
      | char c =>
          have h := ih (c :: pending)
          rwa [List.reverse_cons, List.append_assoc] at h
      | link url =>
          have hlink : Spell url [linkNode url] :=
            .element (by decide) (.inl rfl) (.ofText url)
          rw [nodesOf, List.flatMap_cons]
          exact (spell_textNodes pending).append (hlink.append (ih []))

theorem keeps_autolink {n : Node} (htext : n.isText = true) : Keeps [n] (autolink n.text) := by
  have h := spell_nodesOf (pieces none n.text.toList) []
  rw [pieces_chars, List.reverse_nil, List.nil_append] at h
  refine .of_same h.shaped (fun _ ↦ h.readable) ?_
  rw [autolink, h.contents, contentsAll_singleton, contents_text (beq_iff_eq.mp htext)]

theorem keeps_of_forall₂ {ns : List Node} {parts : List (List Node)}
    (h : List.Forall₂ (fun n part ↦ n.All Shaped → Keeps [n] part) ns parts)
    (hns : ∀ n ∈ ns, n.All Shaped) : Keeps ns parts.flatten := by
  induction h with
  | nil => exact .refl hns
  | cons hfirst _ ih =>
      rw [List.forall_mem_cons] at hns
      rw [List.flatten_cons]
      exact (hfirst hns.1).append (ih hns.2)

theorem followsLinks_keeps : FollowsLinks fun n part ↦ n.All Shaped → Keeps [n] part where
  refl _ hn := .refl (List.forall_mem_singleton.mpr hn)
  text htext _ := keeps_autolink htext
  node {n parts} _ hbelow h hn := by
    obtain ⟨hself, hchildren⟩ := all_iff.mp hn
    rw [h]
    refine .node hn (.withChildren _ _) (keeps_of_forall₂ hbelow hchildren) fun htext ↦ ?_
    rw [hself.leaf htext] at hbelow
    cases hbelow
    rfl

theorem keeps_links (n : Node) (hn : n.All Shaped) : Keeps [n] [links n] :=
  followsLinks_keeps.links n hn

end Links

section Tasks

variable {ns ms : List Node} {n m : Node}

/-- Nodes that start with a checkbox in brackets, and the same ones with the checkbox in its
place. -/
structure Ticks (ns ms : List Node) : Prop where
  shaped : ∀ m ∈ ms, m.All Shaped
  readable : (∀ n ∈ ns, n.All Readable) → ∀ m ∈ ms, m.All Readable
  contents : ∃ mark rest, (mark = ' ' ∨ mark = 'x' ∨ mark = 'X') ∧
    contentsAll ns = .letter '[' :: .letter mark :: .letter ']' :: rest ∧
    contentsAll ms = .checkbox (mark != ' ') :: rest

theorem exists_of_checkbox? {text after : String} {checked : Bool}
    (h : checkbox? text = some (checked, after)) :
    ∃ mark, (mark = ' ' ∨ mark = 'x' ∨ mark = 'X') ∧ checked = (mark != ' ') ∧
      text.toList = '[' :: mark :: ']' :: after.toList := by
  unfold checkbox? at h
  split at h
  · rename_i mark blank rest htext
    split at h
    · rename_i hmark
      obtain ⟨-, hmark⟩ := Bool.and_eq_true_iff.mp hmark
      cases h
      refine ⟨mark, ?_, rfl, by rw [htext, String.toList_ofList]⟩
      simpa [or_assoc] using hmark
    · cases h
  · cases h

theorem contents_checkboxNode (checked : Bool) :
    (checkboxNode checked).contents = [.checkbox checked] := by
  cases checked with
  | true =>
      rw [contents_of_not_isProgram (by decide) (by rfl)]
      rfl
  | false =>
      rw [contents_of_not_isProgram (by decide) (by rfl)]
      rfl

theorem ticks_withCheckbox? (hns : ∀ n ∈ ns, n.All Shaped) (h : withCheckbox? ns = some ms) :
    Ticks ns ms := by
  obtain ⟨n, rest, checked, after, rfl, htext, hcheckbox, rfl⟩ := exists_of_withCheckbox? h
  rw [List.forall_mem_cons] at hns
  obtain ⟨mark, hmark, rfl, hletters⟩ := exists_of_checkbox? hcheckbox
  have hkind : n.kind = .text := beq_iff_eq.mp htext
  have hbox : (checkboxNode (mark != ' ')).All Shaped := all_shaped_element (List.forall_mem_nil _)
  have hafter : All Shaped { n with value := some after } := by
    obtain ⟨hself, hbelow⟩ := all_iff.mp hns.1
    exact all_iff.mpr ⟨⟨hself.leaf, hself.named, hself.program⟩, hbelow⟩
  refine ⟨?_, fun hread ↦ ?_, mark, after.toList.map .letter ++ contentsAll rest, hmark, ?_, ?_⟩
  · exact List.forall_mem_cons.mpr ⟨hbox, List.forall_mem_cons.mpr ⟨hafter, hns.2⟩⟩
  · rw [List.forall_mem_cons] at hread
    obtain ⟨hself, hbelow⟩ := all_iff.mp hread.1
    have hbox : (checkboxNode (mark != ' ')).All Readable := by
      refine all_readable_element (.inl ?_) (List.forall_mem_nil _)
      split <;> rfl
    have hafter : All Readable { n with value := some after } :=
      all_iff.mpr ⟨⟨hself.classes, hself.language⟩, hbelow⟩
    exact List.forall_mem_cons.mpr ⟨hbox, List.forall_mem_cons.mpr ⟨hafter, hread.2⟩⟩
  · rw [contentsAll, contents_text hkind, hletters]
    rfl
  · have hrest : Node.contents { n with value := some after } = after.toList.map .letter :=
      contents_text hkind
    rw [contentsAll, contentsAll, contents_checkboxNode, hrest]
    rfl

theorem ticks_taskChildren? (hns : ∀ n ∈ ns, n.All Shaped) (h : taskChildren? ns = some ms) :
    Ticks ns ms := by
  rcases taskChildren?_cases h with ⟨first, rest, inner, rfl, hparagraph, hinner, rfl⟩ | h
  · rw [List.forall_mem_cons] at hns
    obtain ⟨hself, hbelow⟩ := all_iff.mp hns.1
    have hticks := ticks_withCheckbox? hbelow hinner
    obtain ⟨hkind, htag⟩ := Bool.and_eq_true_iff.mp hparagraph
    have hkind : first.kind = .element := beq_iff_eq.mp hkind
    have htag : first.tag = some "p" := by
      obtain ⟨t, ht, hmem⟩ := (Option.any_eq_true _ _).mp htag
      exact ht.trans (congrArg some (List.mem_singleton.mp (List.contains_iff_mem.mp hmem)))
    -- a paragraph holds what its children hold
    have hcontents {k : Node} (hk : k.kind = .element) (hp : k.tag = some "p") :
        k.contents = contentsAll k.children := by
      rw [contents_of_not_isProgram (by simp [hk])]
      · simp [opening, foreign?, isItem, isCheckbox, isElement, hk, hp]
      · simp [isProgram, isElement, hp]
    have hfirst : All Shaped { first with children := inner } := by
      refine Shaped.of_children hns.1 rfl rfl (by simp [hkind]) hticks.shaped ?_
      simp [isProgram, isElement, htag]
    obtain ⟨mark, after, hmark, hbefore, hafter⟩ := hticks.contents
    refine ⟨List.forall_mem_cons.mpr ⟨hfirst, hns.2⟩, fun hread ↦ ?_, mark,
      after ++ contentsAll rest, hmark, ?_, ?_⟩
    · rw [List.forall_mem_cons] at hread
      obtain ⟨hself, hbelow⟩ := all_iff.mp hread.1
      have hinner := hticks.readable hbelow
      exact List.forall_mem_cons.mpr
        ⟨all_iff.mpr ⟨⟨hself.classes, hself.language⟩, hinner⟩, hread.2⟩
    · rw [contentsAll, ← List.cons_append, ← List.cons_append, ← List.cons_append, ← hbefore]
      rw [hcontents hkind htag]
    · have hinner : Node.contents { first with children := inner } = contentsAll inner :=
        hcontents hkind htag
      rw [contentsAll, hinner, hafter, List.cons_append]
  · exact ticks_withCheckbox? hns h

/-- Adding classes keeps the head of a node and its children. -/
theorem sameHead_addClasses {names : List String} (hkind : n.kind ≠ .component)
    (h : n.addClasses names = .ok m) : SameHead n m ∧ m.children = n.children := by
  obtain ⟨classes, -, h⟩ := bind_eq_ok.mp h
  cases h
  exact ⟨.withClasses hkind _, rfl⟩

theorem opening_of_isItem (h : n.isItem = true) : ∃ before, n.opening = before ++ [.item] := by
  have htag : n.tag = some "li" := beq_iff_eq.mp h
  exact ⟨n.foreign?.toList.map .foreign, by simp [opening, isItem, isCheckbox, isElement, htag]⟩

theorem conserves_task? {item : Node} (hitem : item.All Shaped) (hli : item.isItem = true)
    (h : task? item = .ok (some m)) : Conserves [item] [m] := by
  obtain ⟨children, hchildren, hclasses⟩ := task?_eq_some h
  obtain ⟨hself, hbelow⟩ := all_iff.mp hitem
  have hticks := ticks_taskChildren? hbelow hchildren
  have htag : item.tag = some "li" := beq_iff_eq.mp hli
  have htext : item.kind ≠ .text := fun htext ↦ by
    rw [hself.leaf htext] at hchildren
    cases hchildren
  have hcomponent : item.kind ≠ .component := fun hkind ↦ by
    rw [hself.not_isItem hkind] at hli
    cases hli
  obtain ⟨hhead, hbelowTask⟩ :=
    sameHead_addClasses (n := { item with children }) hcomponent hclasses
  have hhead := (SameHead.withChildren item children).trans hhead
  have hticks : Ticks item.children m.children := hbelowTask ▸ hticks
  have hprogram : item.isProgram = false := by simp [isProgram, isElement, htag]
  have hshaped : m.All Shaped := by
    refine Shaped.of_children hitem hhead.kind hhead.tag (fun hkind ↦ (htext hkind).elim)
      hticks.shaped fun hm ↦ ?_
    rw [hhead.program, hprogram] at hm
    cases hm
  refine ⟨List.forall_mem_singleton.mpr hshaped, fun hread ↦ ?_, ?_⟩
  · obtain ⟨hread, hreadAll⟩ := all_iff.mp (List.forall_mem_singleton.mp hread)
    exact List.forall_mem_singleton.mpr
      (all_iff.mpr ⟨hhead.readable hread, hticks.readable hreadAll⟩)
  · obtain ⟨mark, rest, hmark, hbefore, hafter⟩ := hticks.contents
    obtain ⟨front, hfront⟩ := opening_of_isItem hli
    have htextTask : m.kind ≠ .text := hhead.kind ▸ htext
    rw [contentsAll_singleton, contentsAll_singleton, contents_of_not_isProgram htext hprogram,
      contents_of_not_isProgram htextTask (hhead.program.trans hprogram), hhead.opening, hbefore,
      hafter, hfront, List.append_assoc, List.append_assoc]
    exact (Ticked.refl front).append (.tick hmark (.refl rest))

theorem conserves_of_forall₂ (h : List.Forall₂ (fun n m ↦ n.All Shaped → Conserves [n] [m]) ns ms)
    (hns : ∀ n ∈ ns, n.All Shaped) : Conserves ns ms := by
  induction h with
  | nil => exact .refl hns
  | cons hfirst _ ih =>
      rw [List.forall_mem_cons] at hns
      exact (hfirst hns.1).append (ih hns.2)

theorem conserves_markItems {found : Bool} (hns : ∀ n ∈ ns, n.All Shaped)
    (h : markItems ns = .ok (ms, found)) : Conserves ns ms := by
  refine conserves_of_forall₂ ((forall₂_markItems h).imp fun n m hmark hn ↦ ?_) hns
  rcases hmark with ⟨htag, htask⟩ | ⟨rfl, -⟩
  · exact conserves_task? hn (beq_iff_eq.mpr htag) htask
  · exact .refl (List.forall_mem_singleton.mpr hn)

theorem conserves_markTasks (hn : n.All Shaped) (h : markTasks n = .ok m) : Conserves [n] [m] := by
  rcases markTasks_cases h with ⟨hlist, children, found, hitems, hmarked⟩ | ⟨-, rfl⟩
  · have hchildren := conserves_markItems (all_iff.mp hn).2 hitems
    obtain ⟨hkind, htag⟩ := Bool.and_eq_true_iff.mp hlist
    have hkind : n.kind = .element := beq_iff_eq.mp hkind
    have hprogram : n.isProgram = false := by
      obtain ⟨t, ht, hmem⟩ := (Option.any_eq_true _ _).mp htag
      have hne : t ≠ "code" := by
        rintro rfl
        exact absurd hmem (by decide)
      simp [isProgram, isElement, ht, hne]
    have hchanged {k : Node} (hhead : SameHead n k) (hk : k.children = children) :
        Conserves [n] [k] := by
      refine .node hn hhead (hk ▸ hchildren) (fun htext ↦ ?_) (fun hcase ↦ ?_)
      · rw [hkind] at htext
        cases htext
      · rw [hprogram] at hcase
        cases hcase
    rcases hmarked with hclasses | rfl
    · have hcomponent : n.kind ≠ .component := by simp [hkind]
      obtain ⟨hhead, hbelow⟩ := sameHead_addClasses (n := { n with children }) hcomponent hclasses
      exact hchanged ((SameHead.withChildren n children).trans hhead) hbelow
    · exact hchanged (.withChildren n children) rfl
  · exact .refl (List.forall_mem_singleton.mpr hn)

theorem not_isProgram_of_not_exempt (h : n.isElement exemptTags = false) : n.isProgram = false := by
  cases hprogram : n.isProgram with
  | false => rfl
  | true =>
      obtain ⟨hcode, -⟩ := Bool.and_eq_true_iff.mp hprogram
      obtain ⟨hkind, htag⟩ := Bool.and_eq_true_iff.mp hcode
      obtain ⟨t, ht, hmem⟩ := (Option.any_eq_true _ _).mp htag
      have ht' : n.tag = some "code" :=
        ht.trans (congrArg some (List.mem_singleton.mp (List.contains_iff_mem.mp hmem)))
      simp [isElement, ht', exemptTags, beq_iff_eq.mp hkind] at h

theorem followsTasks_conserves : FollowsTasks fun n m ↦ n.All Shaped → Conserves [n] [m] where
  refl _ hn := .refl (List.forall_mem_singleton.mpr hn)
  mark {n m children} _ hexempt hbelow hmark hn := by
    obtain ⟨hself, hchildren⟩ := all_iff.mp hn
    have hprogram : n.isProgram = false := not_isProgram_of_not_exempt hexempt
    have hfirst : Conserves [n] [{ n with children }] := by
      refine .node hn (.withChildren n children) (conserves_of_forall₂ hbelow hchildren)
        (fun htext ↦ ?_) (fun hcase ↦ by rw [hprogram] at hcase; cases hcase)
      rw [hself.leaf htext] at hbelow
      cases hbelow
      rfl
    exact hfirst.trans (conserves_markTasks (hfirst.shaped _ List.mem_cons_self) hmark)

theorem conserves_taskLists (n : Node) {m : Node} (hn : n.All Shaped) (h : taskLists n = .ok m) :
    Conserves [n] [m] :=
  followsTasks_conserves.taskLists n h hn

theorem conserves_taskListsAmong (ns : List Node) {depth : Nat} {ms : List Node}
    (hns : ∀ n ∈ ns, n.All Shaped) (h : taskListsAmong depth ns = .ok ms) : Conserves ns ms :=
  conserves_of_forall₂ (followsTasks_conserves.taskListsAmong ns h) hns

theorem conserves_enrich {tree out : Node} (htree : tree.All Shaped) (h : enrich tree = .ok out) :
    Conserves [tree] [out] := by
  obtain ⟨marked, hmarked, rfl⟩ := map_eq_ok.mp h
  have hfirst := conserves_taskLists tree htree hmarked
  exact hfirst.trans (keeps_links marked (hfirst.shaped _ List.mem_cons_self)).toConserves

end Tasks

section Readable

variable {ns : List Node} {n : Node}

theorem exists_addClasses (h : n.Readable) (names : List String) :
    ∃ m, n.addClasses names = .ok m := by
  obtain ⟨classes, hclasses⟩ := h.classes
  exact ⟨_, bind_eq_ok.mpr ⟨classes, hclasses, rfl⟩⟩

theorem exists_markItems (h : ∀ n ∈ ns, n.All Readable) : ∃ r, markItems ns = .ok r := by
  induction ns with
  | nil => exact ⟨_, rfl⟩
  | cons n ns ih =>
      rw [List.forall_mem_cons] at h
      obtain ⟨⟨others, any⟩, hothers⟩ := ih h.2
      have htask : ∃ task, (if n.tag == some "li" then task? n else .ok none) = .ok task := by
        split
        · unfold task?
          split
          · exact ⟨_, rfl⟩
          · rename_i children _
            have hread := (SameHead.withChildren n children).readable (all_iff.mp h.1).1
            obtain ⟨m, hm⟩ := exists_addClasses hread ["task-list-item"]
            exact ⟨some m, map_eq_ok.mpr ⟨m, hm, rfl⟩⟩
        · exact ⟨none, rfl⟩
      obtain ⟨task, htask⟩ := htask
      rw [markItems_cons, htask, hothers]
      cases task <;> exact ⟨_, rfl⟩

theorem exists_markTasks (h : n.All Readable) : ∃ m, markTasks n = .ok m := by
  unfold markTasks
  split
  · obtain ⟨⟨children, found⟩, hitems⟩ := exists_markItems (all_iff.mp h).2
    rw [hitems]
    cases found with
    | true =>
        have hread := (SameHead.withChildren n children).readable (all_iff.mp h).1
        exact exists_addClasses hread ["contains-task-list"]
    | false => exact ⟨_, rfl⟩
  · exact ⟨n, rfl⟩

mutual

theorem exists_taskLists : (n : Node) → n.All Shaped → n.All Readable → ∃ m, taskLists n = .ok m
  | ⟨kind, tag, attrs, children, value, data⟩, hn, hread => by
      rw [taskLists]
      split
      · exact ⟨_, rfl⟩
      · obtain ⟨-, hbelow⟩ := all_iff.mp hn
        obtain ⟨hself, hreadAll⟩ := all_iff.mp hread
        obtain ⟨nodes, hnodes⟩ := exists_taskListsAmong children 0 hbelow hreadAll
        have hnodesRead := (conserves_taskListsAmong children hbelow hnodes).readable hreadAll
        obtain ⟨m, hm⟩ := exists_markTasks (n := ⟨kind, tag, attrs, nodes, value, data⟩)
          (all_iff.mpr ⟨⟨hself.classes, hself.language⟩, hnodesRead⟩)
        exact ⟨m, bind_eq_ok.mpr ⟨nodes, hnodes, hm⟩⟩

theorem exists_taskListsAmong : (ns : List Node) → (depth : Nat) → (∀ n ∈ ns, n.All Shaped) →
    (∀ n ∈ ns, n.All Readable) → ∃ ms, taskListsAmong depth ns = .ok ms
  | [], depth, _, _ => ⟨[], rfl⟩
  | n :: rest, depth, hns, hread => by
      rw [List.forall_mem_cons] at hns hread
      obtain ⟨others, hothers⟩ := exists_taskListsAmong rest depth hns.2 hread.2
      rw [taskListsAmong]
      split
      · obtain ⟨others, hothers⟩ := exists_taskListsAmong rest
          (openAfter false depth n.text.toList) hns.2 hread.2
        exact ⟨_, map_eq_ok.mpr ⟨others, hothers, rfl⟩⟩
      · split
        · exact ⟨_, map_eq_ok.mpr ⟨others, hothers, rfl⟩⟩
        · obtain ⟨m, hm⟩ := exists_taskLists n hns.1 hread.1
          exact ⟨_, bind_eq_ok.mpr ⟨m, hm, bind_eq_ok.mpr ⟨others, hothers, rfl⟩⟩⟩

end

theorem exists_enrich {tree : Node} (htree : tree.All Shaped) (h : tree.All Readable) :
    ∃ out, enrich tree = .ok out := by
  obtain ⟨marked, hmarked⟩ := exists_taskLists tree htree h
  exact ⟨_, map_eq_ok.mpr ⟨marked, hmarked, rfl⟩⟩

end Readable

end SafeMarkdown.Gfm
