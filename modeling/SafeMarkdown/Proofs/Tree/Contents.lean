import Mathlib.Tactic.SplitIfs
import SafeMarkdown.Proofs.Tree.Walk

/-!
# What a tree holds

The letters of a tree in document order, and between them the raw markup and the components, which
are taken as they are, the places where list items start, and the checkboxes. Of a program, a code
element that names its language, only the letters and what is taken as it is count: its elements may
be replaced by those of a highlighted program.
-/

namespace SafeMarkdown

/-- What is taken as it is until a tree is sanitized or shown. -/
inductive Foreign where
  | markup (value : Option String)
  | component (tag : Option String) (attrs data : Fields)

/-- A piece of what a tree holds. -/
inductive Content where
  | letter (c : Char)
  | foreign (f : Foreign)
  | item
  | checkbox (checked : Bool)

namespace Content

def letter? : Content → Option Char
  | letter c => some c
  | _ => none

def foreign? : Content → Option Foreign
  | foreign f => some f
  | _ => none

/-- Whether a piece counts in a program. -/
def countsInProgram : Content → Bool
  | item => false
  | checkbox _ => false
  | _ => true

end Content

namespace Node

def foreign? (n : Node) : Option Foreign :=
  match n.kind with
  | .raw => some (.markup n.value)
  | .component => some (.component n.tag n.attrs n.data)
  | _ => none

def isItem (n : Node) : Bool :=
  n.tag == some "li"

def isCheckbox (n : Node) : Bool :=
  n.isElement ["input"] && (n.attrs.get? "type").bind Value.str? == some "checkbox"

def isProgram (n : Node) : Bool :=
  n.isElement ["code"] && n.flagged "lang"

/-- What a node holds in front of what its children hold. -/
def opening (n : Node) : List Content :=
  n.foreign?.toList.map .foreign ++ (if n.isItem then [.item] else []) ++
    (if n.isCheckbox then [.checkbox (n.attrs.has "checked")] else [])

mutual

def contents : Node → List Content
  | ⟨kind, tag, attrs, children, value, data⟩ =>
    if kind == .text then (value.getD "").toList.map .letter
    else opening ⟨kind, tag, attrs, [], value, data⟩ ++
      (if isProgram ⟨kind, tag, attrs, [], value, data⟩ then
        (contentsAll children).filter Content.countsInProgram
      else contentsAll children)

def contentsAll : List Node → List Content
  | [] => []
  | n :: rest => contents n ++ contentsAll rest

end

/-- The shape of the trees that documents are read as. -/
structure Shaped (n : Node) : Prop where
  /-- Nothing stands below a text. -/
  leaf : n.kind = .text → n.children = []
  /-- The name of a component starts with no lower case letter. -/
  named : n.kind = .component → ∀ c ∈ n.tagName.toList.head?, c.isLower = false
  /-- Neither raw markup nor a component stands below a program. -/
  program : n.isProgram = true → ∀ m ∈ walk.walkAll n.children, m.kind ≠ .raw ∧ m.kind ≠ .component

instance (n : Node) : Decidable n.Shaped :=
  letI : Decidable (∀ c ∈ n.tagName.toList.head?, c.isLower = false) := Option.decidableForallMem _
  decidable_of_iff
    ((n.kind = .text → n.children = []) ∧
      (n.kind = .component → ∀ c ∈ n.tagName.toList.head?, c.isLower = false) ∧
      (n.isProgram = true → ∀ m ∈ walk.walkAll n.children, m.kind ≠ .raw ∧ m.kind ≠ .component))
    ⟨fun ⟨hleaf, hnamed, hprogram⟩ ↦ ⟨hleaf, hnamed, hprogram⟩,
      fun h ↦ ⟨h.leaf, h.named, h.program⟩⟩

end Node

/-- The same contents, except that of some list items that start with a checkbox in brackets, these
three letters have given way to the checkbox. -/
inductive Ticked : List Content → List Content → Prop where
  | nil : Ticked [] []
  | keep (c : Content) {before after : List Content} (h : Ticked before after) :
      Ticked (c :: before) (c :: after)
  | tick {mark : Char} (hmark : mark = ' ' ∨ mark = 'x' ∨ mark = 'X') {before after : List Content}
      (h : Ticked before after) :
      Ticked (.item :: .letter '[' :: .letter mark :: .letter ']' :: before)
        (.item :: .checkbox (mark != ' ') :: after)

namespace Ticked

theorem refl (cs : List Content) : Ticked cs cs := by
  induction cs with
  | nil => exact .nil
  | cons c cs ih => exact .keep c ih

variable {before mid after before' after' : List Content}

theorem append (h : Ticked before after) (h' : Ticked before' after') :
    Ticked (before ++ before') (after ++ after') := by
  induction h with
  | nil => exact h'
  | keep c _ ih => exact .keep c ih
  | tick hmark _ ih => exact .tick hmark ih

/-- What does not start with a list item is where it was. -/
theorem exists_of_cons {c : Content} (hc : c ≠ .item) (h : Ticked before (c :: after)) :
    ∃ rest, before = c :: rest ∧ Ticked rest after := by
  cases h with
  | keep _ h => exact ⟨_, rfl, h⟩
  | tick hmark h => exact (hc rfl).elim

theorem exists_of_cons' {c : Content} (hc : c ≠ .item) (h : Ticked (c :: before) after) :
    ∃ rest, after = c :: rest ∧ Ticked before rest := by
  cases h with
  | keep _ h => exact ⟨_, rfl, h⟩
  | tick hmark h => exact (hc rfl).elim

theorem trans (h : Ticked before mid) (h' : Ticked mid after) : Ticked before after := by
  induction h' generalizing before with
  | nil => exact h
  | @keep c mid after h' ih =>
      cases h with
      | keep _ h => exact .keep c (ih h)
      | @tick mark hmark before rest h =>
          -- the checkbox made first is kept
          obtain ⟨others, rfl, hrest⟩ := exists_of_cons' (by simp) h'
          have hkept : Ticked (.checkbox (mark != ' ') :: before) (.checkbox (mark != ' ') :: others) :=
            ih (.keep _ h)
          cases hkept with
          | keep _ hkept => exact .tick hmark hkept
  | @tick mark hmark mid after h' ih =>
      cases h with
      | keep _ h =>
          obtain ⟨_, rfl, hbracket⟩ := exists_of_cons (by simp) h
          obtain ⟨_, rfl, hletter⟩ := exists_of_cons (by simp) hbracket
          obtain ⟨_, rfl, hrest⟩ := exists_of_cons (by simp) hletter
          exact .tick hmark (ih hrest)

theorem foreign (h : Ticked before after) :
    after.filterMap Content.foreign? = before.filterMap Content.foreign? := by
  induction h with
  | nil => rfl
  | keep c _ ih => simp [List.filterMap_cons, ih]
  | tick hmark _ ih => simp [List.filterMap_cons, Content.foreign?, ih]

end Ticked

namespace Node

theorem contentsAll_append (ns ms : List Node) :
    contentsAll (ns ++ ms) = contentsAll ns ++ contentsAll ms := by
  induction ns with
  | nil => simp [contentsAll]
  | cons n ns ih => simp [contentsAll, ih]

theorem contentsAll_singleton (n : Node) : contentsAll [n] = n.contents := by
  simp [contentsAll]

theorem contents_text {n : Node} (h : n.kind = .text) : n.contents = n.text.toList.map .letter := by
  obtain ⟨kind, tag, attrs, children, value, data⟩ := n
  have hkind : kind = .text := h
  simp [contents, hkind, text]

theorem contents_ofText (s : String) : (ofText s).contents = s.toList.map .letter :=
  contents_text rfl

theorem contents_of_isProgram {n : Node} (h : n.isProgram = true) :
    n.contents = (contentsAll n.children).filter Content.countsInProgram := by
  obtain ⟨kind, tag, attrs, children, value, data⟩ := n
  obtain ⟨helement, hlang⟩ := Bool.and_eq_true_iff.mp h
  obtain ⟨hkind, hcode⟩ := Bool.and_eq_true_iff.mp helement
  obtain rfl : kind = .element := beq_iff_eq.mp hkind
  obtain rfl : tag = some "code" := by
    obtain ⟨t, ht, hmem⟩ := (Option.any_eq_true _ _).mp hcode
    exact ht.trans (congrArg some (List.mem_singleton.mp (List.contains_iff_mem.mp hmem)))
  have hprogram : isProgram ⟨.element, some "code", attrs, [], value, data⟩ = true := h
  simp [contents, hprogram, opening, foreign?, isItem, isCheckbox, isElement]

theorem contents_of_not_isProgram {n : Node} (htext : n.kind ≠ .text) (h : n.isProgram = false) :
    n.contents = n.opening ++ contentsAll n.children := by
  obtain ⟨kind, tag, attrs, children, value, data⟩ := n
  have hprogram : isProgram ⟨kind, tag, attrs, [], value, data⟩ = false := h
  have htext : kind ≠ .text := htext
  rw [contents, hprogram]
  simp only [beq_iff_eq, htext, if_false, Bool.false_eq_true]
  rfl

/-- An element that is neither a list item nor a checkbox nor a program holds what its children
hold. -/
theorem contents_element {tag : String} (htag : tag ∉ ["li", "input", "code"]) (attrs : Fields)
    (children : List Node) (data : Fields) :
    (element tag attrs children data).contents = contentsAll children := by
  have hne : tag ≠ "li" ∧ tag ≠ "input" ∧ tag ≠ "code" := by simpa using htag
  rw [contents_of_not_isProgram (by simp [element])]
  · simp [opening, foreign?, isItem, isCheckbox, isElement, element, hne]
  · simp [isProgram, isElement, element, hne]

section Projections

theorem letter_opening (n : Node) : n.opening.filterMap Content.letter? = [] := by
  unfold opening
  split_ifs <;> cases n.foreign? <;> simp [Content.letter?]

theorem foreign_opening (n : Node) : n.opening.filterMap Content.foreign? = n.foreign?.toList := by
  unfold opening
  split_ifs <;> cases n.foreign? <;> simp [Content.foreign?]

theorem letter_countsInProgram (cs : List Content) :
    (cs.filter Content.countsInProgram).filterMap Content.letter? =
      cs.filterMap Content.letter? := by
  induction cs with
  | nil => rfl
  | cons c cs ih =>
      rw [List.filter_cons, List.filterMap_cons]
      cases c <;> simp [List.filterMap_cons, Content.countsInProgram,
        Content.letter?, ih]

theorem foreign_countsInProgram (cs : List Content) :
    (cs.filter Content.countsInProgram).filterMap Content.foreign? =
      cs.filterMap Content.foreign? := by
  induction cs with
  | nil => rfl
  | cons c cs ih =>
      rw [List.filter_cons, List.filterMap_cons]
      cases c <;> simp [List.filterMap_cons, Content.countsInProgram,
        Content.foreign?, ih]

theorem letter_map (cs : List Char) :
    (cs.map Content.letter).filterMap Content.letter? = cs := by
  induction cs with
  | nil => rfl
  | cons c cs ih => simp only [List.map_cons, List.filterMap_cons, Content.letter?, ih]

mutual

/-- The letters of a tree are those of its text. -/
theorem letter_contents : (n : Node) →
    n.contents.filterMap Content.letter? = n.textContent.toList
  | ⟨kind, tag, attrs, children, value, data⟩ => by
      rw [contents, textContent]
      split
      · exact letter_map _
      · rw [List.filterMap_append, letter_opening, List.nil_append]
        split
        · rw [letter_countsInProgram]
          exact letter_contentsAll children
        · exact letter_contentsAll children

theorem letter_contentsAll : (ns : List Node) →
    (contentsAll ns).filterMap Content.letter? = (textContent.textOfAll ns).toList
  | [] => by simp [contentsAll, textContent.textOfAll]
  | n :: rest => by
      rw [contentsAll, textContent.textOfAll, List.filterMap_append, String.toList_append,
        letter_contents n, letter_contentsAll rest]

end

mutual

/-- What a tree takes as it is, node by node. -/
theorem foreign_contents : (n : Node) → n.All Shaped →
    n.contents.filterMap Content.foreign? = n.walk.filterMap foreign?
  | ⟨kind, tag, attrs, children, value, data⟩, hn => by
      obtain ⟨hself, hbelow⟩ := all_iff.mp hn
      rw [contents, walk_mk]
      split
      · rename_i htext
        have hkind : kind = .text := beq_iff_eq.mp htext
        have hchildren : children = [] := hself.leaf hkind
        have hnone : foreign? ⟨kind, tag, attrs, children, value, data⟩ = none := by
          simp [foreign?, hkind]
        rw [hchildren] at hnone ⊢
        simp [walk.walkAll, hnone, Content.foreign?]
      · have hall := foreign_contentsAll children hbelow
        have hchildren : ((if isProgram ⟨kind, tag, attrs, [], value, data⟩ then
              (contentsAll children).filter Content.countsInProgram
            else contentsAll children).filterMap Content.foreign?) =
            (walk.walkAll children).filterMap foreign? := by
          split
          · rw [foreign_countsInProgram, hall]
          · exact hall
        rw [List.filterMap_append, foreign_opening, hchildren]
        have hsame : foreign? ⟨kind, tag, attrs, [], value, data⟩ =
          foreign? ⟨kind, tag, attrs, children, value, data⟩ := rfl
        rw [hsame, List.filterMap_cons]
        cases foreign? ⟨kind, tag, attrs, children, value, data⟩ with
        | none => rfl
        | some f => rfl

theorem foreign_contentsAll : (ns : List Node) → (∀ n ∈ ns, n.All Shaped) →
    (contentsAll ns).filterMap Content.foreign? = (walk.walkAll ns).filterMap foreign?
  | [], _ => by simp [contentsAll, walk.walkAll]
  | n :: rest, hns => by
      rw [List.forall_mem_cons] at hns
      rw [contentsAll, walk.walkAll, List.filterMap_append, List.filterMap_append,
        foreign_contents n hns.1, foreign_contentsAll rest hns.2]

end

end Projections

/-- Where nothing is taken as it is, the letters are all that counts in a program. -/
theorem letters_of_foreign_eq_nil {cs : List Content}
    (h : cs.filterMap Content.foreign? = []) :
    cs.filter Content.countsInProgram = (cs.filterMap Content.letter?).map .letter := by
  induction cs with
  | nil => rfl
  | cons c cs ih =>
      have hrest : cs.filterMap Content.foreign? = [] := by
        rw [List.filterMap_cons] at h
        split at h
        · exact h
        · cases h
      cases c with
      | letter c => 
          rw [List.filter_cons_of_pos rfl, ih hrest]
          rfl
      | foreign f => cases h
      | item => exact ih hrest
      | checkbox checked => exact ih hrest

theorem foreign?_eq_none {n : Node} : n.foreign? = none ↔ n.kind ≠ .raw ∧ n.kind ≠ .component := by
  obtain ⟨kind, tag, attrs, children, value, data⟩ := n
  cases kind <;> simp [foreign?]

section Shape

variable {n m : Node} {ns ms : List Node}

theorem Shaped.not_isItem (h : n.Shaped) (hkind : n.kind = .component) : n.isItem = false := by
  have hnamed := h.named hkind
  cases hitem : n.isItem with
  | false => rfl
  | true =>
      have htag : n.tag = some "li" := beq_iff_eq.mp hitem
      have hlower := hnamed 'l' (by rw [tagName, htag]; decide)
      cases hlower

/-- A program holds its letters alone. -/
theorem Shaped.contents_program (hn : n.All Shaped) (h : n.isProgram = true) :
    n.contents = n.textContent.toList.map .letter := by
  obtain ⟨hself, hbelow⟩ := all_iff.mp hn
  have hforeign : (contentsAll n.children).filterMap Content.foreign? = [] := by
    rw [foreign_contentsAll n.children hbelow, List.filterMap_eq_nil_iff]
    intro m hm
    exact foreign?_eq_none.mpr (hself.program h m hm)
  have hall := letter_contents n
  rw [contents_of_isProgram h, letter_countsInProgram] at hall
  rw [contents_of_isProgram h, letters_of_foreign_eq_nil hforeign, hall]

/-- What a node with other children has to keep of the shape. -/
theorem Shaped.of_children (hn : n.All Shaped) (hkind : m.kind = n.kind) (htag : m.tag = n.tag)
    (hleaf : n.kind = .text → m.children = [])
    (hms : ∀ m' ∈ m.children, m'.All Shaped)
    (hprogram : m.isProgram = true → n.isProgram = true ∧
      (contentsAll m.children).filterMap Content.foreign? =
        (contentsAll n.children).filterMap Content.foreign?) : m.All Shaped := by
  obtain ⟨hself, hbelow⟩ := all_iff.mp hn
  refine all_iff.mpr ⟨⟨fun h ↦ hleaf (hkind ▸ h), fun h ↦ ?_, fun h k hk ↦ ?_⟩, hms⟩
  · rw [tagName, htag]
    exact hself.named (hkind ▸ h)
  · obtain ⟨hn, hsame⟩ := hprogram h
    rw [foreign_contentsAll _ hms, foreign_contentsAll _ hbelow] at hsame
    have hnone : (walk.walkAll n.children).filterMap foreign? = [] := by
      rw [List.filterMap_eq_nil_iff]
      intro k hk
      exact foreign?_eq_none.mpr (hself.program hn k hk)
    rw [hnone, List.filterMap_eq_nil_iff] at hsame
    exact foreign?_eq_none.mp (hsame k hk)

theorem all_shaped_ofText (s : String) : (ofText s).All Shaped := by
  refine all_iff.mpr ⟨⟨fun _ ↦ rfl, ?_, ?_⟩, List.forall_mem_nil _⟩
  · simp [ofText]
  · simp [ofText, isProgram, isElement]

/-- An element of its own, without a language, has the shape if its children have. -/
theorem all_shaped_element {tag : String} {attrs : Fields} {children : List Node}
    (h : ∀ n ∈ children, n.All Shaped) : (element tag attrs children).All Shaped := by
  refine all_iff.mpr ⟨⟨?_, ?_, ?_⟩, h⟩
  · simp [element]
  · simp [element]
  · simp [element, isProgram, flagged, Fields.get?]

end Shape

end Node

end SafeMarkdown
