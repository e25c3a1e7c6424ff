import SafeMarkdown.Html.Writer
import SafeMarkdown.Proofs.Html.Scanner
import SafeMarkdown.Proofs.Returns
import SafeMarkdown.Proofs.Tree.Walk

/-!
# Markup that can be read back

The events of a tree without raw markup: the tags of its elements, and between them its text, to
which a component that nothing shows adds the text of its tags. The markup of such a tree is read
back by a scanner as exactly these events, so that no text, attribute or component opens or closes a
tag.
-/

namespace SafeMarkdown

namespace Html

/-- The value with which an attribute is shown, none for a bare name; null and false are not
shown. -/
def shownAttribute (f : String × Value) : Option (List Char × Option (List Char)) :=
  match f.2 with
  | .null => none
  | .bool false => none
  | .bool true => some (f.1.toList, none)
  | v => some (f.1.toList, some (attributeValue v).toList)

def startEvent (tag : Option String) (attrs : Fields) : Event :=
  .start (shownTag tag).toList (attrs.filterMap shownAttribute)

def stopEvent (tag : Option String) : Event :=
  .stop (shownTag tag).toList

/-- The texts that stand for the tags of a component: before its content and behind it. -/
abbrev ComponentTexts := Option String → Fields → String × String

def isSelfClosing (source : List Char) : Bool :=
  "/>".toList.isSuffixOf source

/-- The text behind the content of a component is empty if its source, up to white space at the end,
closes itself; a component whose source is missing or empty shows its name. -/
def componentTexts : ComponentTexts := fun tag data ↦
  let source := match data.get? "source" with
    | some (.str s) => if s.isEmpty then "<" ++ shownTag tag ++ ">" else s
    | _ => "<" ++ shownTag tag ++ ">"
  (source, if isSelfClosing (Text.trimEnd source.toList) then "" else "</" ++ shownTag tag ++ ">")

mutual

def eventsWith (texts : ComponentTexts) : Node → List Event
  | ⟨.text, _, _, _, value, _⟩ => [.text (value.getD "").toList]
  | ⟨.raw, _, _, _, _, _⟩ => []
  | ⟨.root, _, _, children, _, _⟩ => eventsAllWith texts children
  | ⟨.component, tag, _, children, _, data⟩ =>
    .text (texts tag data).1.toList :: eventsAllWith texts children ++
      [.text (texts tag data).2.toList]
  | ⟨.element, tag, attrs, children, _, _⟩ =>
    if tag.any voidTags.contains then [startEvent tag attrs]
    else startEvent tag attrs :: eventsAllWith texts children ++ [stopEvent tag]

def eventsAllWith (texts : ComponentTexts) : List Node → List Event
  | [] => []
  | n :: rest => eventsWith texts n ++ eventsAllWith texts rest

end

/-- The events of a tree, neighbouring texts joined. -/
def events (n : Node) : List Event :=
  joined (eventsWith componentTexts n)

/-- Whether the tags of a node can be told from what stands around them: an element has a plain name
and attributes with plain names, the source of a component is a text if it has one, and raw markup
is excluded. -/
structure Writable (n : Node) : Prop where
  not_raw : n.kind ≠ .raw
  tag : n.kind = .element → ∃ t, n.tag = some t ∧ PlainName t.toList
  attrs : n.kind = .element → ∀ f ∈ n.attrs, PlainName f.1.toList
  source : n.kind = .component →
    n.data.get? "source" = none ∨ ∃ s, n.data.get? "source" = some (.str s)

theorem toList_escapeAttribute (s : String) :
    (escapeAttribute s).toList = s.toList.flatMap escapeAttributeChar := by
  simp [escapeAttribute]

section Tags

theorem toList_attributeText (name : String) (v : Value) :
    (attributeText name v).toList = (shownAttribute (name, v)).toList.flatMap spelledAttribute := by
  unfold attributeText shownAttribute
  split <;> simp [spelledAttribute, toList_escapeAttribute]

theorem toList_attributesText (attrs : Fields) :
    (attributesText attrs).toList = (attrs.filterMap shownAttribute).flatMap spelledAttribute := by
  unfold attributesText
  induction attrs with
  | nil => simp
  | cons f attrs ih =>
      obtain ⟨name, v⟩ := f
      have hfirst := toList_attributeText name v
      cases hshown : shownAttribute (name, v) <;>
        simp_all [String.join_cons]

theorem shownTag_plain {n : Node} (h : Writable n) (hkind : n.kind = .element) :
    PlainName (shownTag n.tag).toList := by
  obtain ⟨t, htag, hname⟩ := h.tag hkind
  rwa [htag]

theorem plain_of_mem_shown {attrs : Fields} (h : ∀ f ∈ attrs, PlainName f.1.toList) :
    ∀ a ∈ attrs.filterMap shownAttribute, PlainName a.1 := by
  intro a ha
  obtain ⟨⟨name, v⟩, hf, hshown⟩ := List.mem_filterMap.mp ha
  have hname : a.1 = name.toList := by
    unfold shownAttribute at hshown
    split at hshown
    · cases hshown
    · cases hshown
    · cases hshown
      rfl
    · cases hshown
      rfl
  rw [hname]
  exact h _ hf

theorem toList_startTag (tag : Option String) (attrs : Fields) :
    ("<" ++ shownTag tag ++ attributesText attrs ++ ">").toList =
      spelledStart (shownTag tag).toList (attrs.filterMap shownAttribute) := by
  simp [spelledStart, toList_attributesText]

theorem toList_stopTag (tag : Option String) :
    ("</" ++ shownTag tag ++ ">").toList = spelledStop (shownTag tag).toList := by
  simp [spelledStop]

end Tags

section Components

variable {tag : Option String} {data : Fields}

theorem spells_text (s : String) : Spells [.text s.toList] (escapeText s).toList := by
  have h := Spells.text encodes_escapeTextChar s.toList .nil
  simpa [escapeText] using h

theorem spells_attribute (s : String) : Spells [.text s.toList] (escapeAttribute s).toList := by
  have h := Spells.text encodes_escapeAttributeChar s.toList .nil
  simpa [escapeAttribute] using h

theorem succeeds_literalComponent (inner : String)
    (hsource : data.get? "source" = none ∨ ∃ s, data.get? "source" = some (.str s)) :
    Succeeds (literalComponent tag data inner)
      (escapeAttribute (componentTexts tag data).1 ++ inner ++
        escapeAttribute (componentTexts tag data).2) := by
  -- what follows once the source is known
  have hrest (source : String) :
      Succeeds (if "/>".toList.isSuffixOf (Text.trimEnd source.toList) then
          pure (escapeAttribute source ++ inner)
        else pure (escapeAttribute source ++ inner ++ escapeAttribute ("</" ++ shownTag tag ++ ">")) :
          Writing String)
        (escapeAttribute source ++ inner ++ escapeAttribute
          (if isSelfClosing (Text.trimEnd source.toList) then "" else "</" ++ shownTag tag ++ ">")) := by
    rw [isSelfClosing]
    by_cases h : "/>".toList.isSuffixOf (Text.trimEnd source.toList) = true
    · have hempty : escapeAttribute "" = "" := rfl
      rw [if_pos h, if_pos h, hempty, String.append_empty]
      exact succeeds_pure _
    · rw [if_neg h, if_neg h]
      exact succeeds_pure _
  unfold literalComponent componentTexts
  refine Succeeds.bind (succeeds_modify _) ?_
  dsimp only
  rcases hsource with hnone | ⟨s, hsome⟩
  · rw [hnone]
    exact Succeeds.bind (succeeds_pure _) (hrest _)
  · rw [hsome]
    by_cases hs : s.isEmpty = true
    · simp only [Value.isTruthy, hs, Bool.not_true, Bool.false_eq_true, if_true, if_false]
      exact Succeeds.bind (succeeds_pure _) (hrest _)
    · simp only [Value.isTruthy, hs, Bool.not_false, if_true]
      exact Succeeds.bind (succeeds_pure _) (hrest _)

end Components

mutual

theorem spells_write : (n : Node) → n.All Writable →
    ∃ h, Succeeds (write [] n) h ∧ Spells (eventsWith componentTexts n) h.toList
  | ⟨.text, tag, attrs, children, value, data⟩, _ => by
      rw [write, eventsWith]
      exact ⟨_, succeeds_pure _, spells_text _⟩
  | ⟨.raw, tag, attrs, children, value, data⟩, hn =>
      ((Node.all_iff.mp hn).1.not_raw rfl).elim
  | ⟨.root, tag, attrs, children, value, data⟩, hn => by
      rw [write, eventsWith]
      exact spells_writeAll children (Node.all_iff.mp hn).2
  | ⟨.component, tag, attrs, children, value, data⟩, hn => by
      obtain ⟨hself, hchildren⟩ := Node.all_iff.mp hn
      obtain ⟨inner, hinner, hspells⟩ := spells_writeAll children hchildren
      have hnone : (tag.bind fun name ↦ List.lookup name ([] : Registry)) = none := by
        cases tag <;> rfl
      have hwritten : Succeeds (componentText [] tag attrs data inner)
          (escapeAttribute (componentTexts tag data).1 ++ inner ++
            escapeAttribute (componentTexts tag data).2) := by
        simp only [componentText, hnone]
        exact succeeds_literalComponent inner (hself.source rfl)
      rw [write, eventsWith]
      refine ⟨_, Succeeds.bind hinner hwritten, ?_⟩
      simp only [String.toList_append]
      exact ((spells_attribute _).append hspells).append (spells_attribute _)
  | ⟨.element, tag, attrs, children, value, data⟩, hn => by
      obtain ⟨hself, hchildren⟩ := Node.all_iff.mp hn
      obtain ⟨inner, hinner, hspells⟩ := spells_writeAll children hchildren
      have hname := shownTag_plain hself rfl
      have hattrs := plain_of_mem_shown (hself.attrs rfl)
      have hstart := Spells.start hname hattrs .nil
      have hstop := Spells.stop hname .nil
      rw [List.append_nil, ← toList_startTag] at hstart
      rw [List.append_nil, ← toList_stopTag] at hstop
      rw [write, eventsWith]
      by_cases hvoid : tag.any voidTags.contains = true
      · simp only [hvoid, if_true]
        exact ⟨_, Succeeds.bind hinner (succeeds_pure _), hstart⟩
      · have hall := (hstart.append hspells).append hstop
        simp only [hvoid]
        refine ⟨_, Succeeds.bind hinner (succeeds_pure _), ?_⟩
        simpa [startEvent, stopEvent] using hall

theorem spells_writeAll : (ns : List Node) → (∀ n ∈ ns, n.All Writable) →
    ∃ h, Succeeds (writeAll [] ns) h ∧ Spells (eventsAllWith componentTexts ns) h.toList
  | [], _ => by
      rw [writeAll, eventsAllWith]
      exact ⟨_, succeeds_pure _, .nil⟩
  | n :: rest, hns => by
      rw [List.forall_mem_cons] at hns
      obtain ⟨first, hfirst, hspells⟩ := spells_write n hns.1
      obtain ⟨others, hothers, hmore⟩ := spells_writeAll rest hns.2
      rw [writeAll, eventsAllWith]
      refine ⟨_, Succeeds.bind hfirst (Succeeds.bind hothers (succeeds_pure _)), ?_⟩
      rw [String.toList_append]
      exact hspells.append hmore

end

mutual

/-- The tags among the events of a tree are those of its elements. -/
theorem element_of_mem_events {texts : ComponentTexts} {e : Event} (htag : e.isTag = true) :
    (n : Node) → e ∈ eventsWith texts n → ∃ m ∈ n.walk, m.kind = .element ∧
      (e = startEvent m.tag m.attrs ∨ e = stopEvent m.tag)
  | ⟨.text, tag, attrs, children, value, data⟩, he => by
      rw [eventsWith, List.mem_singleton] at he
      subst he
      cases htag
  | ⟨.raw, tag, attrs, children, value, data⟩, he => by
      simp [eventsWith] at he
  | ⟨.root, tag, attrs, children, value, data⟩, he => by
      rw [eventsWith] at he
      rw [Node.walk_mk]
      obtain ⟨m, hm, h⟩ := element_of_mem_eventsAll htag children he
      exact ⟨m, List.mem_cons_of_mem _ hm, h⟩
  | ⟨.component, tag, attrs, children, value, data⟩, he => by
      have hne (s : List Char) : e ≠ .text s := by
        rintro rfl
        cases htag
      have he : e ∈ eventsAllWith texts children := by simpa [eventsWith, hne] using he
      rw [Node.walk_mk]
      obtain ⟨m, hm, h⟩ := element_of_mem_eventsAll htag children he
      exact ⟨m, List.mem_cons_of_mem _ hm, h⟩
  | ⟨.element, tag, attrs, children, value, data⟩, he => by
      have hcases : e = startEvent tag attrs ∨ e ∈ eventsAllWith texts children ∨
          e = stopEvent tag := by
        rw [eventsWith] at he
        split_ifs at he
        · exact .inl (List.mem_singleton.mp he)
        · simpa using he
      rw [Node.walk_mk]
      rcases hcases with h | h | h
      · exact ⟨_, List.mem_cons_self, rfl, .inl h⟩
      · obtain ⟨m, hm, h⟩ := element_of_mem_eventsAll htag children h
        exact ⟨m, List.mem_cons_of_mem _ hm, h⟩
      · exact ⟨_, List.mem_cons_self, rfl, .inr h⟩

theorem element_of_mem_eventsAll {texts : ComponentTexts} {e : Event} (htag : e.isTag = true) :
    (ns : List Node) → e ∈ eventsAllWith texts ns → ∃ m ∈ Node.walk.walkAll ns, m.kind = .element ∧
      (e = startEvent m.tag m.attrs ∨ e = stopEvent m.tag)
  | [], he => by simp [eventsAllWith] at he
  | n :: rest, he => by
      rw [eventsAllWith] at he
      rw [Node.walk.walkAll]
      rcases List.mem_append.mp he with he | he
      · obtain ⟨m, hm, h⟩ := element_of_mem_events htag n he
        exact ⟨m, List.mem_append_left _ hm, h⟩
      · obtain ⟨m, hm, h⟩ := element_of_mem_eventsAll htag rest he
        exact ⟨m, List.mem_append_right _ hm, h⟩

end

/-- The markup of a tree without raw markup is read back as the events of the tree, and every tag in
it is one of an element. -/
theorem scan_render {tree : Node} (h : tree.All Writable) :
    ∃ markup, (render [] tree).1 = .ok markup ∧ scan markup = some (events tree) ∧
      ∀ e ∈ events tree, e.isTag = true → ∃ n ∈ tree.walk, n.kind = .element ∧
        (e = startEvent n.tag n.attrs ∨ e = stopEvent n.tag) := by
  obtain ⟨markup, hsucceeds, hspells⟩ := spells_write tree h
  refine ⟨markup, hsucceeds [], ?_, ?_⟩
  · have hscan := scan_of_spells hspells
    rwa [String.ofList_toList] at hscan
  · intro e he htag
    exact element_of_mem_events htag tree (mem_of_mem_joinedFrom htag he)

/-- A paragraph whose attribute, text and component hold what would be markup elsewhere. -/
def disguised : Node :=
  Node.element "p" [("title", .str "\"><b>"), ("hidden", .bool true), ("lang", .null)] [
    Node.ofText "1 < 2 &lt; \"3\"",
    Node.component "Box" [] [Node.element "br" [] []] [("source", .str "<Box a='</p>'>")]]

theorem scan_render_disguised : disguised.All Writable ∧
    events disguised = [
      .start ['p'] [("title".toList, some "\"><b>".toList), ("hidden".toList, none)],
      .text "1 < 2 &lt; \"3\"<Box a='</p>'>".toList, .start "br".toList [],
      .text "</Box>".toList, .stop ['p']] ∧
    ∃ markup, (render [] disguised).1 = .ok markup ∧ scan markup = some (events disguised) ∧
      ∀ e ∈ events disguised, e.isTag = true → ∃ n ∈ disguised.walk, n.kind = .element ∧
        (e = startEvent n.tag n.attrs ∨ e = stopEvent n.tag) := by
  have htext : (Node.ofText "1 < 2 &lt; \"3\"").All Writable :=
    Node.all_iff.mpr ⟨⟨by decide, by simp [Node.ofText], by simp [Node.ofText],
      by simp [Node.ofText]⟩, by simp [Node.ofText]⟩
  have hbreak : (Node.element "br" [] []).All Writable :=
    Node.all_iff.mpr ⟨⟨by decide, fun _ ↦ ⟨"br", rfl, by decide⟩, by simp [Node.element],
      by simp [Node.element]⟩, by simp [Node.element]⟩
  have hbox : (Node.component "Box" [] [Node.element "br" [] []]
      [("source", .str "<Box a='</p>'>")]).All Writable :=
    Node.all_iff.mpr ⟨⟨by decide, by simp [Node.component], by simp [Node.component],
      fun _ ↦ .inr ⟨_, rfl⟩⟩, List.forall_mem_singleton.mpr hbreak⟩
  have hall : disguised.All Writable :=
    Node.all_iff.mpr ⟨⟨by decide, fun _ ↦ ⟨"p", rfl, by decide⟩, fun _ ↦ by decide,
      by simp [disguised, Node.element]⟩,
      List.forall_mem_cons.mpr ⟨htext, List.forall_mem_singleton.mpr hbox⟩⟩
  exact ⟨hall, by decide, scan_render hall⟩

/-- The texts of a component as its source alone would have them: an empty source is shown as it is,
and white space behind a source is not passed over. -/
def sourceTexts : ComponentTexts := fun tag data ↦
  let source := match data.get? "source" with
    | some (.str s) => s
    | _ => "<" ++ shownTag tag ++ ">"
  (source, if isSelfClosing source.toList then "" else "</" ++ shownTag tag ++ ">")

def sourced (source : String) : Node :=
  Node.component "A" [] [] [("source", .str source)]

theorem writable_sourced (source : String) : (sourced source).All Writable :=
  Node.all_iff.mpr ⟨⟨by simp [sourced, Node.component], by simp [sourced, Node.component],
    by simp [sourced, Node.component], fun _ ↦ .inr ⟨_, rfl⟩⟩, List.forall_mem_nil _⟩

/-- Behind a source that closes itself and a space there is no closing tag, and in place of an empty
source the name is shown. -/
theorem scan_render_sourced :
    ((sourced "<A/> ").All Writable ∧ (render [] (sourced "<A/> ")).1 = .ok "&lt;A/&gt; " ∧
      scan "&lt;A/&gt; " ≠ some (joined (eventsWith sourceTexts (sourced "<A/> ")))) ∧
    (sourced "").All Writable ∧ (render [] (sourced "")).1 = .ok "&lt;A&gt;&lt;/A&gt;" ∧
      scan "&lt;A&gt;&lt;/A&gt;" ≠ some (joined (eventsWith sourceTexts (sourced ""))) :=
  ⟨⟨writable_sourced _, rfl, by decide +kernel⟩,
    writable_sourced _, rfl, by decide +kernel⟩

end Html

end SafeMarkdown
