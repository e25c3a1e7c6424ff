import SafeMarkdown.Proofs.Gfm.Autolink
import SafeMarkdown.Proofs.Gfm.Conserve
import SafeMarkdown.Proofs.Gfm.Enrich

/-!
# Enriching twice

Marking the tasks of a tree and linking its URLs changes nothing the second time. The texts between
links hold no URL, so nothing is left to link. A marked task starts with its checkbox and no longer
with a text, and linking never brings a text to the front that starts with a checkbox in brackets,
as long as no text is empty: behind an empty one that is dropped another text could come to stand
first.
-/

namespace SafeMarkdown.Gfm

open Node

variable {n m : Node} {ns ms : List Node} {depth : Nat}

section LinksAmong

theorem isElement_linkNode (url : List Char) : (linkNode url).isElement exemptTags = true := by
  rfl

/-- The texts and links that a text became are left as they are. -/
theorem linksAmong_linked {linked : List Node} (h : ∀ n ∈ linked, IsLinked n) (ns : List Node) :
    linksAmong 0 (linked ++ ns) = linked ++ linksAmong 0 ns := by
  induction linked with
  | nil => rfl
  | cons n rest ih =>
      rw [List.forall_mem_cons] at h
      have hrest := ih h.2
      rw [List.cons_append]
      cases h.1 with
      | @text text hne hquiet =>
          have hlinked : linksAmong 0 (ofText text :: (rest ++ ns)) =
              autolink text ++ linksAmong 0 (rest ++ ns) := linksAmong_text rfl _
          rw [hlinked, autolink_of_quiet hquiet hne, hrest]
          rfl
      | link url =>
          rw [linksAmong_node rfl rfl, links_of_exempt (isElement_linkNode url), hrest]
          rfl

mutual

theorem links_links : (n : Node) → links (links n) = links n
  | ⟨kind, tag, attrs, children, value, data⟩ => by
      rw [links]
      split
      · rename_i h
        exact links_of_exempt h
      · rename_i h
        rw [Bool.not_eq_true] at h
        rw [links_of_not_exempt (n := ⟨kind, tag, attrs, linksAmong 0 children, value, data⟩) h,
          linksAmong_linksAmong children 0]

theorem linksAmong_linksAmong : (ns : List Node) → (depth : Nat) →
    linksAmong depth (linksAmong depth ns) = linksAmong depth ns
  | [], depth => by
      rw [linksAmong, linksAmong]
  | n :: rest, depth => by
      cases hraw : n.isRaw with
      | true => rw [linksAmong_raw hraw, linksAmong_raw hraw, linksAmong_linksAmong rest]
      | false =>
          by_cases hdepth : depth = 0
          · subst hdepth
            cases htext : n.isText with
            | true => rw [linksAmong_text htext, linksAmong_linked fun _ ↦ isLinked_of_mem_autolink,
                  linksAmong_linksAmong rest]
            | false =>
                rw [linksAmong_node hraw htext,
                  linksAmong_node (by rw [isRaw_links, hraw]) (by rw [isText_links, htext]),
                  links_links n, linksAmong_linksAmong rest]
          · rw [linksAmong_enclosed hraw hdepth, linksAmong_enclosed hraw hdepth,
              linksAmong_linksAmong rest]

end

end LinksAmong

section Done

/-- A tree in which no task is left to be marked. -/
def Done (n : Node) : Prop :=
  taskLists n = .ok n

/-- Siblings in and below which no task is left to be marked. -/
def DoneAll (depth : Nat) (ns : List Node) : Prop :=
  taskListsAmong depth ns = .ok ns

/-- Siblings of which no list item starts with a checkbox in brackets. -/
def NoTasks (ns : List Node) : Prop :=
  ∀ n ∈ ns, n.tag = some "li" → taskChildren? n.children = none

theorem doneAll_nil : DoneAll depth [] :=
  rfl

theorem doneAll_raw (h : n.isRaw = true) :
    DoneAll depth (n :: ns) ↔ DoneAll (openAfter false depth n.text.toList) ns := by
  rw [DoneAll, taskListsAmong, if_pos h, map_eq_ok]
  simp [DoneAll]

theorem doneAll_passed (hraw : n.isRaw = false) (h : n.isText = true ∨ depth ≠ 0) :
    DoneAll depth (n :: ns) ↔ DoneAll depth ns := by
  have hpassed : (n.isText || depth != 0) = true := by simpa using h
  rw [DoneAll, taskListsAmong, hraw, if_neg Bool.false_ne_true, if_pos hpassed, map_eq_ok]
  simp [DoneAll]

theorem doneAll_node (hraw : n.isRaw = false) (htext : n.isText = false) :
    DoneAll 0 (n :: ns) ↔ Done n ∧ DoneAll 0 ns := by
  rw [DoneAll, taskListsAmong, hraw, if_neg Bool.false_ne_true, htext, if_neg (by decide)]
  simp only [bind_eq_ok, DoneAll, Done]
  constructor
  · rintro ⟨m, hm, ms, hms, h⟩
    cases h
    exact ⟨hm, hms⟩
  · exact fun ⟨hn, hns⟩ ↦ ⟨n, hn, ns, hns, rfl⟩

theorem markItems_of_noTasks (h : NoTasks ns) : markItems ns = .ok (ns, false) := by
  induction ns with
  | nil => rfl
  | cons n rest ih =>
      have hrest := ih fun k hk ↦ h k (List.mem_cons_of_mem n hk)
      have htask : (if n.tag == some "li" then task? n else .ok none) = .ok none := by
        split
        · rename_i hitem
          rw [task?, h n List.mem_cons_self (beq_iff_eq.mp hitem)]
        · rfl
      rw [markItems_cons, htask, hrest]
      rfl

theorem markTasks_of_noTasks (h : n.isElement ["ul", "ol"] = true → NoTasks n.children) :
    markTasks n = .ok n := by
  obtain ⟨kind, tag, attrs, children, value, data⟩ := n
  unfold markTasks
  split
  · rename_i hlist
    rw [markItems_of_noTasks (h hlist)]
    rfl
  · rfl

theorem done_of_parts (hchildren : DoneAll 0 n.children)
    (htasks : n.isElement ["ul", "ol"] = true → NoTasks n.children) : Done n := by
  obtain ⟨kind, tag, attrs, children, value, data⟩ := n
  rw [Done, taskLists]
  split
  · rfl
  · rw [hchildren]
    exact markTasks_of_noTasks htasks

/-- An element with a tag that is neither that of a list nor an exempt one. -/
theorem not_isElement_of_tag {tag : String} {tags : List String} (h : n.tag = some tag)
    (hother : tag ∉ tags) : n.isElement tags = false := by
  simp [isElement, h, hother]

theorem not_isElement_of_isElement {tags others : List String} (h : n.isElement tags = true)
    (hother : ∀ tag ∈ tags, tag ∉ others) : n.isElement others = false := by
  obtain ⟨-, htag⟩ := Bool.and_eq_true_iff.mp h
  obtain ⟨tag, htag, hmem⟩ := (Option.any_eq_true _ _).mp htag
  exact not_isElement_of_tag htag (hother tag (List.contains_iff_mem.mp hmem))

theorem isElement_of_subset {tags others : List String} (h : n.isElement tags = true)
    (hsub : tags ⊆ others) : n.isElement others = true := by
  obtain ⟨hkind, htag⟩ := Bool.and_eq_true_iff.mp h
  obtain ⟨tag, htag, hmem⟩ := (Option.any_eq_true _ _).mp htag
  rw [isElement, hkind, htag, Option.any_some, List.contains_iff_mem.mpr
    (hsub (List.contains_iff_mem.mp hmem))]
  rfl

theorem leaves_of_isElement {tags : List String} (h : n.isElement tags = true) :
    n.isRaw = false ∧ n.isText = false := by
  obtain ⟨hkind, -⟩ := Bool.and_eq_true_iff.mp h
  have hkind : n.kind = .element := beq_iff_eq.mp hkind
  simp [isRaw, isText, hkind]

theorem taskChildren?_of_taskChildren? (h : taskChildren? ns = some ms) :
    taskChildren? ms = none := by
  rcases taskChildren?_cases h with ⟨first, rest, inner, rfl, hparagraph, hinner, rfl⟩ | h
  · obtain ⟨n, more, checked, after, -, -, -, rfl⟩ := exists_of_withCheckbox? hinner
    rw [taskChildren?, if_pos (by exact hparagraph)]
    rfl
  · obtain ⟨n, more, checked, after, -, -, -, rfl⟩ := exists_of_withCheckbox? h
    rfl

theorem noTasks_markItems {found : Bool} (h : markItems ns = .ok (ms, found)) : NoTasks ms := by
  have hall := forall₂_markItems h
  clear h
  induction hall with
  | nil => exact List.forall_mem_nil _
  | cons hfirst hrest ih =>
      refine List.forall_mem_cons.mpr ⟨fun htag ↦ ?_, ih⟩
      rcases hfirst with ⟨-, htask⟩ | ⟨rfl, hnone⟩
      · obtain ⟨attrs, children, hchildren, rfl⟩ := exists_of_task? htask
        exact taskChildren?_of_taskChildren? hchildren
      · exact hnone htag

/-- A node that is neither exempt nor a list has no task left exactly when none is left below it. -/
theorem done_iff_of_plain (hexempt : n.isElement exemptTags = false)
    (hlist : n.isElement ["ul", "ol"] = false) : Done n ↔ DoneAll 0 n.children := by
  obtain ⟨kind, tag, attrs, children, value, data⟩ := n
  refine ⟨fun h ↦ ?_, fun h ↦ done_of_parts h fun h ↦ absurd h (by rw [hlist]; decide)⟩
  rw [Done, taskLists_of_not_exempt hexempt, bind_eq_ok] at h
  obtain ⟨nodes, hnodes, h⟩ := h
  have hmark : markTasks ⟨kind, tag, attrs, nodes, value, data⟩ =
      .ok ⟨kind, tag, attrs, nodes, value, data⟩ :=
    if_neg (by rw [Bool.not_eq_true]; exact hlist)
  rw [hmark] at h
  cases h
  exact hnodes

theorem doneAll_withCheckbox? (h : withCheckbox? ns = some ms) (hns : DoneAll 0 ns) :
    DoneAll 0 ms := by
  obtain ⟨n, rest, checked, after, rfl, htext, -, rfl⟩ := exists_of_withCheckbox? h
  have hraw : n.isRaw = false := isRaw_of_isText htext
  have hrest : DoneAll 0 rest := (doneAll_passed hraw (.inl htext)).mp hns
  have hbox : Done (checkboxNode checked) := by
    cases checked <;> exact done_of_parts doneAll_nil fun h ↦ absurd h (by decide)
  have hafter : DoneAll 0 ({ n with value := some after } :: rest) :=
    (doneAll_passed (n := { n with value := some after }) hraw (.inl htext)).mpr hrest
  exact (doneAll_node rfl rfl).mpr ⟨hbox, hafter⟩

theorem doneAll_taskChildren? (h : taskChildren? ns = some ms) (hns : DoneAll 0 ns) :
    DoneAll 0 ms := by
  rcases taskChildren?_cases h with ⟨first, rest, inner, rfl, hparagraph, hinner, rfl⟩ | h
  · have hexempt : first.isElement exemptTags = false :=
      not_isElement_of_isElement hparagraph (by decide)
    have hlist : first.isElement ["ul", "ol"] = false :=
      not_isElement_of_isElement hparagraph (by decide)
    obtain ⟨hraw, htext⟩ := leaves_of_isElement hparagraph
    obtain ⟨hfirst, hrest⟩ := (doneAll_node hraw htext).mp hns
    have hbelow : DoneAll 0 inner :=
      doneAll_withCheckbox? hinner ((done_iff_of_plain hexempt hlist).mp hfirst)
    have hfirst : Done { first with children := inner } :=
      (done_iff_of_plain (n := { first with children := inner }) hexempt hlist).mpr hbelow
    exact (doneAll_node (n := { first with children := inner }) hraw htext).mpr ⟨hfirst, hrest⟩
  · exact doneAll_withCheckbox? h hns

theorem done_task? (htag : n.tag = some "li") (h : task? n = .ok (some m)) (hn : Done n) :
    Done m := by
  obtain ⟨attrs, children, hchildren, rfl⟩ := exists_of_task? h
  have hexempt : n.isElement exemptTags = false := not_isElement_of_tag htag (by decide)
  have hlist : n.isElement ["ul", "ol"] = false := not_isElement_of_tag htag (by decide)
  have hbelow := doneAll_taskChildren? hchildren ((done_iff_of_plain hexempt hlist).mp hn)
  exact (done_iff_of_plain (n := { n with attrs, children }) hexempt hlist).mpr hbelow

theorem doneAll_markItems {found : Bool} (h : markItems ns = .ok (ms, found))
    (hns : DoneAll depth ns) : DoneAll depth ms := by
  have hall := forall₂_markItems h
  clear h
  induction hall generalizing depth with
  | nil => exact doneAll_nil
  | @cons n m ns ms hfirst _ ih =>
      -- a task has the kind and the text of its item, so siblings behind it are counted the same
      obtain ⟨hraw, htext, hvalue, hdone⟩ : m.isRaw = n.isRaw ∧ m.isText = n.isText ∧
          m.text = n.text ∧ (Done n → Done m) := by
        rcases hfirst with ⟨htag, htask⟩ | ⟨rfl, -⟩
        · have hdone : Done n → Done m := done_task? htag htask
          obtain ⟨attrs, children, -, rfl⟩ := exists_of_task? htask
          exact ⟨rfl, rfl, rfl, hdone⟩
        · exact ⟨rfl, rfl, rfl, id⟩
      cases hkind : n.isRaw with
      | true =>
          rw [doneAll_raw hkind] at hns
          rw [doneAll_raw (hraw.trans hkind), hvalue]
          exact ih hns
      | false =>
          by_cases hpassed : n.isText = true ∨ depth ≠ 0
          · rw [doneAll_passed hkind hpassed] at hns
            rw [doneAll_passed (hraw.trans hkind) (by rwa [htext])]
            exact ih hns
          · rw [not_or, Bool.not_eq_true, not_not] at hpassed
            obtain ⟨hleaf, rfl⟩ := hpassed
            rw [doneAll_node hkind hleaf] at hns
            rw [doneAll_node (hraw.trans hkind) (htext.trans hleaf)]
            exact ⟨hdone hns.1, ih hns.2⟩

theorem parts_of_markTasks (h : markTasks n = .ok m) (hn : DoneAll 0 n.children) :
    DoneAll 0 m.children ∧ (m.isElement ["ul", "ol"] = true → NoTasks m.children) := by
  rcases exists_of_markTasks h with ⟨attrs, children, found, hitems, rfl⟩ | ⟨hlist, rfl⟩
  · exact ⟨doneAll_markItems hitems hn, fun _ ↦ noTasks_markItems hitems⟩
  · exact ⟨hn, fun h ↦ absurd h (by rw [hlist]; decide)⟩

mutual

theorem done_taskLists : (n : Node) → {m : Node} → taskLists n = .ok m → Done m
  | ⟨kind, tag, attrs, children, value, data⟩, m, h => by
      have hn := h
      rw [taskLists] at h
      split at h
      · cases h
        exact hn
      · obtain ⟨nodes, hnodes, h⟩ := bind_eq_ok.mp h
        obtain ⟨hbelow, htasks⟩ := parts_of_markTasks h (doneAll_taskListsAmong children hnodes)
        exact done_of_parts hbelow htasks

theorem doneAll_taskListsAmong : (ns : List Node) → {depth : Nat} → {ms : List Node} →
    taskListsAmong depth ns = .ok ms → DoneAll depth ms
  | [], depth, ms, h => by
      cases h
      exact doneAll_nil
  | n :: rest, depth, ms, h => by
      rw [taskListsAmong] at h
      split at h
      · rename_i hraw
        obtain ⟨others, hothers, rfl⟩ := map_eq_ok.mp h
        exact (doneAll_raw hraw).mpr (doneAll_taskListsAmong rest hothers)
      · rename_i hraw
        rw [Bool.not_eq_true] at hraw
        split at h
        · rename_i hpassed
          obtain ⟨others, hothers, rfl⟩ := map_eq_ok.mp h
          exact (doneAll_passed hraw (by simpa using hpassed)).mpr
            (doneAll_taskListsAmong rest hothers)
        · rename_i hpassed
          obtain ⟨m, hm, h⟩ := bind_eq_ok.mp h
          obtain ⟨others, hothers, h⟩ := bind_eq_ok.mp h
          cases h
          obtain ⟨htext, rfl⟩ : n.isText = false ∧ depth = 0 := by simpa using hpassed
          have hkind : m.kind = n.kind := kind_taskLists hm
          refine (doneAll_node ?_ ?_).mpr ⟨done_taskLists n hm, doneAll_taskListsAmong rest hothers⟩
          · rwa [isRaw, hkind]
          · rwa [isText, hkind]

end

/-- What is done has nothing left to do in its parts, unless it is exempt. -/
theorem parts_of_done (hn : Done n) (hexempt : n.isElement exemptTags = false) :
    DoneAll 0 n.children ∧ (n.isElement ["ul", "ol"] = true → NoTasks n.children) := by
  rw [Done, taskLists_of_not_exempt hexempt] at hn
  obtain ⟨nodes, hnodes, h⟩ := bind_eq_ok.mp hn
  exact parts_of_markTasks h (doneAll_taskListsAmong _ hnodes)

end Done

section Worded

/-- Whether a node is no empty text. -/
abbrev Worded (n : Node) : Prop :=
  n.isText = true → n.text ≠ ""

theorem keptByTasks_worded : KeptByTasks Worded where
  withChildren h _ := h
  checkbox _ h := by cases h
  unchecked {n checked after} _ _ hcheckbox _ := by
    obtain ⟨blank, rest, hafter⟩ : ∃ blank rest, after = String.ofList (blank :: rest) := by
      unfold checkbox? at hcheckbox
      split at hcheckbox
      · split at hcheckbox
        · cases hcheckbox
          exact ⟨_, _, rfl⟩
        · cases hcheckbox
      · cases hcheckbox
    change after ≠ ""
    simp [hafter, ← String.toList_inj]
  withClasses h _ _ := h

/-- A text that starts as another one does, and that starts with no checkbox. -/
theorem checkbox?_of_prefix {s t : String} (h : s.toList <+: t.toList) (ht : checkbox? t = none) :
    checkbox? s = none := by
  obtain ⟨rest, hrest⟩ := h
  unfold checkbox? at ht ⊢
  split
  · rename_i mark blank more hs
    rw [← hrest, hs] at ht
    simpa using ht
  · rfl

theorem nodesOf_eq_cons (pending : List Char) (ps : List Piece) (h : pending ≠ [] ∨ ps ≠ []) :
    ∃ first rest, nodesOf pending ps = first :: rest ∧
      ((∃ s, s <+: pending.reverse ++ ps.flatMap Piece.chars ∧ first = ofText (String.ofList s)) ∨
        ∃ url, first = linkNode url) := by
  have htexts {pending : List Char} (hne : pending ≠ []) :
      textNodes pending = [ofText (String.ofList pending.reverse)] :=
    if_neg (by simpa using hne)
  induction ps generalizing pending with
  | nil =>
      have hne : pending ≠ [] := by simpa using h
      exact ⟨_, [], htexts hne, .inl ⟨_, List.prefix_append _ _, rfl⟩⟩
  | cons p ps ih =>
      cases p with
      | char c =>
          obtain ⟨first, rest, heq, hfirst⟩ := ih (c :: pending) (.inl (List.cons_ne_nil _ _))
          rw [List.reverse_cons, List.append_assoc] at hfirst
          exact ⟨first, rest, heq, hfirst⟩
      | link url =>
          by_cases hne : pending = []
          · subst hne
            exact ⟨_, _, rfl, .inr ⟨url, rfl⟩⟩
          · refine ⟨_, linkNode url :: nodesOf [] ps, ?_, .inl ⟨_, List.prefix_append _ _, rfl⟩⟩
            rw [nodesOf, htexts hne, List.singleton_append]

/-- A text that is not empty becomes, in the first place, a start of it or a link. -/
theorem autolink_eq_cons {text : String} (hne : text ≠ "") :
    ∃ first rest, autolink text = first :: rest ∧
      ((∃ s : String, s.toList <+: text.toList ∧ first = ofText s) ∨
        ∃ url, first = linkNode url) := by
  have hpieces : pieces none text.toList ≠ [] := by
    intro h
    have hchars := pieces_chars none text.toList
    rw [h] at hchars
    exact hne (String.toList_inj.mp hchars.symm)
  obtain ⟨first, rest, heq, hfirst⟩ := nodesOf_eq_cons [] _ (.inr hpieces)
  rw [pieces_chars, List.reverse_nil, List.nil_append] at hfirst
  refine ⟨first, rest, heq, hfirst.imp ?_ id⟩
  rintro ⟨s, hs, rfl⟩
  exact ⟨String.ofList s, by rwa [String.toList_ofList], rfl⟩

theorem withCheckbox?_eq_none (h : n.isText = true → checkbox? n.text = none) (ns : List Node) :
    withCheckbox? (n :: ns) = none := by
  unfold withCheckbox?
  dsimp only
  split
  · rename_i htext
    rw [h htext, Option.map_none]
  · rfl

theorem checkbox?_of_withCheckbox? (h : withCheckbox? (n :: ns) = none) (htext : n.isText = true) :
    checkbox? n.text = none := by
  rw [withCheckbox?, if_pos htext, Option.map_eq_none_iff] at h
  exact h

/-- What linking brings to the front starts with no checkbox if what stood there starts with
none. -/
theorem exists_linksAmong_cons (hworded : n.All Worded)
    (hnone : n.isText = true → checkbox? n.text = none) (ns : List Node) :
    ∃ first rest, linksAmong 0 (n :: ns) = first :: rest ∧
      (first.isText = true → checkbox? first.text = none) ∧
      (first = links n ∨ first.isElement ["p"] = false) := by
  cases hraw : n.isRaw with
  | true =>
      refine ⟨n, _, linksAmong_raw hraw 0 ns, hnone, .inr ?_⟩
      rw [isElement, beq_iff_eq.mp hraw]
      rfl
  | false =>
      cases htext : n.isText with
      | true =>
          have hne : n.text ≠ "" := (all_iff.mp hworded).1 htext
          obtain ⟨first, rest, heq, hfirst⟩ := autolink_eq_cons hne
          refine ⟨first, rest ++ linksAmong 0 ns, ?_, ?_⟩
          · rw [linksAmong_text htext, heq, List.cons_append]
          · rcases hfirst with ⟨s, hs, rfl⟩ | ⟨url, rfl⟩
            · exact ⟨fun _ ↦ checkbox?_of_prefix hs (hnone htext), .inr rfl⟩
            · exact ⟨fun h ↦ (by cases h), .inr rfl⟩
      | false =>
          refine ⟨links n, _, linksAmong_node hraw htext ns, fun h ↦ ?_, .inl rfl⟩
          rw [isText_links, htext] at h
          cases h

theorem withCheckbox?_linksAmong (hns : ∀ n ∈ ns, n.All Worded) (h : withCheckbox? ns = none) :
    withCheckbox? (linksAmong 0 ns) = none := by
  cases ns with
  | nil => rfl
  | cons n ns =>
      obtain ⟨first, rest, heq, hfirst, -⟩ :=
        exists_linksAmong_cons (hns n List.mem_cons_self) (checkbox?_of_withCheckbox? h) ns
      rw [heq]
      exact withCheckbox?_eq_none hfirst rest

theorem taskChildren?_linksAmong (hns : ∀ n ∈ ns, n.All Worded) (h : taskChildren? ns = none) :
    taskChildren? (linksAmong 0 ns) = none := by
  cases ns with
  | nil => rfl
  | cons n ns =>
      have hn := hns n List.mem_cons_self
      cases hparagraph : n.isElement ["p"] with
      | true =>
          rw [taskChildren?, if_pos hparagraph, Option.map_eq_none_iff] at h
          obtain ⟨hraw, htext⟩ := leaves_of_isElement hparagraph
          have hlinks : links n = { n with children := linksAmong 0 n.children } :=
            links_of_not_exempt (not_isElement_of_isElement hparagraph (by decide))
          have hlinked : (links n).isElement ["p"] = true := by
            rw [hlinks]
            exact hparagraph
          rw [linksAmong_node hraw htext, taskChildren?, if_pos hlinked, Option.map_eq_none_iff,
            hlinks]
          exact withCheckbox?_linksAmong (all_iff.mp hn).2 h
      | false =>
          rw [taskChildren?, hparagraph, if_neg Bool.false_ne_true] at h
          obtain ⟨first, rest, heq, hnone, hfirst⟩ :=
            exists_linksAmong_cons hn (checkbox?_of_withCheckbox? h) ns
          have hother : first.isElement ["p"] = false := by
            rcases hfirst with rfl | hother
            · rwa [isElement_links]
            · exact hother
          rw [heq, taskChildren?, hother, if_neg Bool.false_ne_true]
          exact withCheckbox?_eq_none hnone rest

/-- What stands among linked siblings: one of them, what one of them became, or a piece of a text,
which is no list item. -/
theorem mem_linksAmong (h : m ∈ linksAmong depth ns) :
    m ∈ ns ∨ (∃ n ∈ ns, m = links n) ∨ m.tag ≠ some "li" := by
  induction ns generalizing depth with
  | nil => cases h
  | cons n ns ih =>
      have hrest {depth : Nat} (hm : m ∈ linksAmong depth ns) :
          m ∈ n :: ns ∨ (∃ k ∈ n :: ns, m = links k) ∨ m.tag ≠ some "li" := by
        rcases ih hm with hmem | ⟨k, hk, rfl⟩ | hother
        · exact .inl (List.mem_cons_of_mem n hmem)
        · exact .inr (.inl ⟨k, List.mem_cons_of_mem n hk, rfl⟩)
        · exact .inr (.inr hother)
      rw [linksAmong] at h
      split at h
      · exact (List.mem_cons.mp h).elim (fun hm ↦ .inl (hm ▸ List.mem_cons_self)) hrest
      · split at h
        · exact (List.mem_cons.mp h).elim (fun hm ↦ .inl (hm ▸ List.mem_cons_self)) hrest
        · split at h
          · rcases List.mem_append.mp h with hm | hm
            · cases isLinked_of_mem_autolink hm with
              | text => exact .inr (.inr nofun)
              | link url => exact .inr (.inr (by simp [linkNode, Node.element]))
            · exact hrest hm
          · rcases List.mem_cons.mp h with rfl | hm
            · exact .inr (.inl ⟨n, List.mem_cons_self, rfl⟩)
            · exact hrest hm

theorem noTasks_linksAmong (hns : ∀ n ∈ ns, n.All Worded) (h : NoTasks ns) :
    NoTasks (linksAmong depth ns) := by
  intro m hm htag
  rcases mem_linksAmong hm with hmem | ⟨n, hn, rfl⟩ | hother
  · exact h m hmem htag
  · have htag : n.tag = some "li" := by rwa [tag_links] at htag
    rw [links_of_not_exempt (not_isElement_of_tag htag (by decide))]
    exact taskChildren?_linksAmong (all_iff.mp (hns n hn)).2 (h n hn htag)
  · exact (hother htag).elim

theorem doneAll_linked {linked : List Node} (h : ∀ n ∈ linked, IsLinked n) (hns : DoneAll 0 ns) :
    DoneAll 0 (linked ++ ns) := by
  induction linked with
  | nil => exact hns
  | cons n rest ih =>
      rw [List.forall_mem_cons] at h
      have hrest := ih h.2
      rw [List.cons_append]
      cases h.1 with
      | text => exact (doneAll_passed rfl (.inl rfl)).mpr hrest
      | link url =>
          exact (doneAll_node rfl rfl).mpr ⟨taskLists_of_exempt (isElement_linkNode url), hrest⟩

mutual

theorem done_links : (n : Node) → n.All Worded → Done n → Done (links n)
  | ⟨kind, tag, attrs, children, value, data⟩, hworded, h => by
      rw [links]
      split
      · exact h
      · rename_i hexempt
        obtain ⟨-, hbelow⟩ := all_iff.mp hworded
        obtain ⟨hchildren, htasks⟩ := parts_of_done h (Bool.eq_false_iff.mpr hexempt)
        exact done_of_parts (doneAll_linksAmong children hbelow hchildren)
          fun hlist ↦ noTasks_linksAmong hbelow (htasks hlist)

theorem doneAll_linksAmong : (ns : List Node) → {depth : Nat} → (∀ n ∈ ns, n.All Worded) →
    DoneAll depth ns → DoneAll depth (linksAmong depth ns)
  | [], depth, _, _ => by
      rw [linksAmong]
      exact doneAll_nil
  | n :: rest, depth, hworded, h => by
      rw [List.forall_mem_cons] at hworded
      cases hraw : n.isRaw with
      | true =>
          rw [linksAmong_raw hraw, doneAll_raw hraw]
          exact doneAll_linksAmong rest hworded.2 ((doneAll_raw hraw).mp h)
      | false =>
          by_cases hdepth : depth = 0
          · subst hdepth
            cases htext : n.isText with
            | true =>
                rw [linksAmong_text htext]
                exact doneAll_linked (fun _ ↦ isLinked_of_mem_autolink)
                  (doneAll_linksAmong rest hworded.2 ((doneAll_passed hraw (.inl htext)).mp h))
            | false =>
                obtain ⟨hn, hrest⟩ := (doneAll_node hraw htext).mp h
                rw [linksAmong_node hraw htext, doneAll_node ((isRaw_links n).trans hraw)
                  ((isText_links n).trans htext)]
                exact ⟨done_links n hworded.1 hn, doneAll_linksAmong rest hworded.2 hrest⟩
          · rw [linksAmong_enclosed hraw hdepth, doneAll_passed hraw (.inr hdepth)]
            exact doneAll_linksAmong rest hworded.2 ((doneAll_passed hraw (.inr hdepth)).mp h)

end

end Worded

/-- Enriching a tree without empty texts a second time changes nothing. -/
theorem enrich_enrich {tree : Node} (h : tree.All Worded) :
    (enrich tree >>= enrich) = enrich tree := by
  unfold enrich
  cases htasks : taskLists tree with
  | error e => rfl
  | ok m =>
      have hdone : Done (links m) :=
        done_links m (all_taskLists keptByTasks_worded tree h htasks) (done_taskLists tree htasks)
      change (taskLists (links m)).map links = .ok (links m)
      rw [hdone]
      exact congrArg Except.ok (links_links m)

/-- A list with a task and a URL in it, before a URL inside raw code and one behind it. -/
def todo : Node :=
  root [
    element "ul" [] [element "li" [] [element "p" [] [ofText "[x] see http://a.b."]]],
    element "p" [] [ofMarkup "<code>", ofText "http://c.d", ofMarkup "</code>", ofText "(www.e.f)"]]

/-- The list has one task then, and two of the three URLs are links. -/
theorem enrich_enrich_todo : todo.All Worded ∧
    ∃ tree, enrich todo = .ok tree ∧ enrich tree = .ok tree ∧
      tree.walk.countP (·.isElement ["input"]) = 1 ∧ tree.walk.countP (·.isElement ["a"]) = 2 := by
  have hworded : todo.All Worded := by decide
  have hcounts : (enrich todo).toOption.map (fun tree ↦
      (tree.walk.countP (·.isElement ["input"]), tree.walk.countP (·.isElement ["a"]))) =
        some (1, 2) := by
    decide +kernel
  obtain ⟨tree, htree, hpair⟩ := exists_ok_of_map hcounts
  obtain ⟨hinputs, hlinks⟩ := Prod.ext_iff.mp hpair
  have htwice := enrich_enrich hworded
  rw [htree] at htwice
  exact ⟨hworded, tree, htree, htwice, hinputs, hlinks⟩

end SafeMarkdown.Gfm
