import Mathlib.Data.List.Nodup
import SafeMarkdown.Proofs.Component.Pieces
import SafeMarkdown.Proofs.Json.Spelled

/-!
# Component tags are read back

A component is written as a tag: its name, and its attributes after a space each, as a bare name, as
a text in the kind of quotes that it does not hold, or as a JSON value in braces. Raw markup that is
such a tag is read as the component with this name and these attributes, and nothing else.
-/

namespace SafeMarkdown.Component

open Text

/-- A value of an attribute and how it is written behind the name. -/
inductive WrittenValue where
  | flag
  | double (t : List Char) (ht : '"' ∉ t)
  | single (t : List Char) (ht : '\'' ∉ t)
  | json (v : Value) (t : List Char) (ht : Json.Padded (Json.Spells v) t) (hflat : FlatBraces t)

namespace WrittenValue

def text : WrittenValue → List Char
  | flag => []
  | double t _ => '=' :: '"' :: (t ++ ['"'])
  | single t _ => '=' :: '\'' :: (t ++ ['\''])
  | json _ t _ _ => '=' :: '\x7b' :: (t ++ ['\x7d'])

/-- The value that is meant; a bare name stands for true. -/
def value : WrittenValue → Value
  | flag => .bool true
  | double t _ => .str (String.ofList t)
  | single t _ => .str (String.ofList t)
  | json v _ _ _ => v

def source : WrittenValue → AttributeSource
  | flag => .flag
  | double t _ => .text t
  | single t _ => .text t
  | json _ t _ _ => .expression t

end WrittenValue

structure WrittenAttribute where
  name : List Char
  isName : IsAttributeName name
  value : WrittenValue

namespace WrittenAttribute

def text (a : WrittenAttribute) : List Char :=
  a.name ++ a.value.text

def field (a : WrittenAttribute) : String × Value :=
  (String.ofList a.name, a.value.value)

end WrittenAttribute

/-- A component without content, as it is written. -/
structure WrittenTag where
  name : List Char
  isName : IsName name
  attrs : List WrittenAttribute
  distinct : (attrs.map (·.name)).Nodup

namespace WrittenTag

def attrsText (attrs : List WrittenAttribute) : List Char :=
  attrs.flatMap fun a ↦ ' ' :: a.text

def text (tag : WrittenTag) : List Char :=
  '<' :: (tag.name ++ (attrsText tag.attrs ++ [' ', '/', '>']))

def fields (tag : WrittenTag) : Fields :=
  tag.attrs.map WrittenAttribute.field

end WrittenTag

section Reading

theorem WrittenValue.value_source (v : WrittenValue) : v.source.value = v.value := by
  cases v with
  | flag => rfl
  | double t ht => rfl
  | single t ht => rfl
  | json v t ht hflat =>
      rw [source, AttributeSource.value, expressionValue, Json.parse?_spelled ht]
      rfl

/-- What follows an attribute in a tag: another one, or the end of the tag. -/
theorem follows_written (attrs : List WrittenAttribute) :
    ∃ c t, WrittenTag.attrsText attrs ++ [' ', '/', '>'] = ' ' :: c :: t ∧ isBlank c = false ∧
      c ≠ '=' := by
  cases attrs with
  | nil => exact ⟨'/', ['>'], rfl, by decide, by decide⟩
  | cons a attrs =>
      obtain ⟨c, cs, hname, hc, -⟩ := a.isName.exists_cons
      refine ⟨c, cs ++ a.value.text ++ (WrittenTag.attrsText attrs ++ [' ', '/', '>']), ?_,
        not_isBlank_of_isAttributeStart hc, ?_⟩
      · rw [WrittenTag.attrsText, List.flatMap_cons, WrittenAttribute.text, hname]
        simp only [WrittenTag.attrsText, List.cons_append, List.append_assoc]
      · rintro rfl
        cases hc

/-- An attribute that is followed by a space is read as it is written. -/
theorem readAttribute?_written (a : WrittenAttribute) {c : Char} (hblank : isBlank c = false)
    (hc : c ≠ '=') (t : List Char) : readAttribute? (a.text ++ ' ' :: c :: t) =
      some (⟨a.name, a.value.source⟩, ' ' :: c :: t) := by
  have hequals (u : List Char) : ∀ d ∈ ('=' :: u).head?, isAttributeChar d = false := by
    rintro d ⟨⟩
    decide
  obtain ⟨name, hname, v⟩ := a
  refine readAttribute?_eq_some.mpr ⟨_, rfl, ?_⟩
  cases v with
  | flag =>
      have hsign : firstSign? (' ' :: c :: t) = some c := by
        rw [firstSign?, List.dropWhile_cons_of_pos (by decide), dropWhile_of_head rfl hblank]
        rfl
      rw [WrittenAttribute.text, WrittenValue.text, List.append_nil]
      refine .flag hname ?_ (readValue?_eq_none hsign hc)
      rintro d ⟨⟩
      decide
  | double t ht =>
      exact .valued hname (hequals _)
        (.double (List.forall_mem_nil _) (List.forall_mem_nil _) ht)
  | single t ht =>
      exact .valued hname (hequals _)
        (.single (List.forall_mem_nil _) (List.forall_mem_nil _) ht)
  | json v t ht hflat =>
      exact .valued hname (hequals _)
        (.expression (List.forall_mem_nil _) (List.forall_mem_nil _)
          hflat)

theorem tagAttributes_written (attrs : List WrittenAttribute) {fuel : Nat}
    (hfuel : attrs.length < fuel) :
    tagAttributes fuel (WrittenTag.attrsText attrs ++ [' ', '/', '>']) =
      (attrs.map fun a ↦ ⟨a.name, a.value.source⟩, [' ', '/', '>']) := by
  obtain ⟨fuel, rfl⟩ : ∃ k, fuel = k + 1 := ⟨fuel - 1, by omega⟩
  induction attrs generalizing fuel with
  | nil => rfl
  | cons a attrs ih =>
      rw [List.length_cons] at hfuel
      obtain ⟨fuel, rfl⟩ : ∃ k, fuel = k + 1 := ⟨fuel - 1, by omega⟩
      obtain ⟨c, t, htail, hblank, hc⟩ := follows_written attrs
      obtain ⟨d, cs, hname, hd, -⟩ := a.isName.exists_cons
      have hread := readAttribute?_written a hblank hc t
      rw [← htail] at hread
      have hdrop : (' ' :: (a.text ++ (WrittenTag.attrsText attrs ++ [' ', '/', '>']))).dropWhile
          isBlank = a.text ++ (WrittenTag.attrsText attrs ++ [' ', '/', '>']) := by
        rw [List.dropWhile_cons_of_pos (by decide)]
        refine dropWhile_of_head (c := d) ?_ (not_isBlank_of_isAttributeStart hd)
        rw [WrittenAttribute.text, hname]
        rfl
      rw [WrittenTag.attrsText, List.flatMap_cons, List.append_assoc, List.cons_append,
        ← WrittenTag.attrsText, tagAttributes]
      dsimp only
      rw [hdrop, if_neg (by rw [List.length_cons]; omega), hread]
      dsimp only
      rw [ih fuel (by omega)]
      rfl

theorem fieldsOf_written (tag : WrittenTag) :
    fieldsOf (tag.attrs.map fun a ↦ ⟨a.name, a.value.source⟩) = tag.fields := by
  have hdistinct : (tag.fields.map Prod.fst).Nodup := by
    have hnames : tag.fields.map Prod.fst = (tag.attrs.map (·.name)).map String.ofList := by
      rw [WrittenTag.fields, List.map_map, List.map_map]
      rfl
    rw [hnames]
    exact List.Nodup.map (fun _ _ h ↦ String.ofList_injective h) tag.distinct
  have hfields : (tag.attrs.map fun a ↦ (⟨a.name, a.value.source⟩ : Attribute)).map
      (fun a ↦ (String.ofList a.name, a.source.value)) = tag.fields := by
    rw [WrittenTag.fields, List.map_map]
    refine List.map_congr_left fun a _ ↦ ?_
    exact congrArg (String.ofList a.name, ·) a.value.value_source
  rw [fieldsOf, hfields, Fields.ofList_of_nodup hdistinct]

theorem readName?_written {name : List Char} (h : IsName name) {c : Char}
    (hc : isNameChar c = false) (t : List Char) :
    readName? (name ++ c :: t) = some (name, c :: t) := by
  obtain ⟨⟨d, cs, rfl, hd⟩, hchars⟩ := h
  rw [List.forall_mem_cons] at hchars
  rw [List.cons_append, readName?, if_pos hd, List.takeWhile_append_of_pos hchars.2,
    List.dropWhile_append_of_pos hchars.2, List.takeWhile_cons_of_neg (by simp [hc]),
    List.dropWhile_cons_of_neg (by simp [hc]), List.append_nil]

theorem length_le_attrsText (attrs : List WrittenAttribute) :
    attrs.length ≤ (WrittenTag.attrsText attrs).length := by
  induction attrs with
  | nil => exact Nat.zero_le _
  | cons a attrs ih =>
      rw [WrittenTag.attrsText, List.flatMap_cons, List.length_append, List.length_cons,
        List.length_cons, ← WrittenTag.attrsText]
      omega

theorem readOpenTag?_written (tag : WrittenTag) : readOpenTag? tag.text =
    some (⟨String.ofList tag.name, tag.fields, true, String.ofList tag.text⟩, []) := by
  obtain ⟨c, t, hnamed, -, -⟩ := follows_written tag.attrs
  refine readOpenTag?_eq_some.mpr ⟨⟨_, tag.name, _, _, [' ', '/', '>'], rfl, ?_,
    tagAttributes_written tag.attrs ?_, rfl, rfl, (fieldsOf_written tag).symm⟩, ?_⟩
  · rw [hnamed]
    exact readName?_written tag.isName (by decide) _
  · have hle := length_le_attrsText tag.attrs
    rw [List.length_append, List.length_cons]
    omega
  · rw [List.length_nil, Nat.sub_zero, List.take_length]

/-- A written tag is read back: it is the component with its name and its attributes, in blocks and
in lines, and a search of its attribute text finds the same attributes. -/
theorem ofMarkup_written (tag : WrittenTag) (blocks : String → Logged (List Node)) (block : Bool) :
    ofMarkup blocks (String.ofList tag.text) block =
        pure [Node.component (String.ofList tag.name) tag.fields []
          [("source", .str (String.ofList tag.text))]] ∧
      parseAttributes (attributeText tag.text) = tag.fields := by
  have hread := readOpenTag?_written tag
  have htrim : trim (String.ofList tag.text).toList = tag.text := by
    have hlast : tag.text.getLast? = some '>' := by
      have hsplit : tag.text =
          '<' :: (tag.name ++ (WrittenTag.attrsText tag.attrs ++ [' ', '/'])) ++ ['>'] := by
        simp [WrittenTag.text]
      rw [hsplit, List.getLast?_concat]
    have hends := trim_append_append (List.forall_mem_nil _) (List.forall_mem_nil _) rfl hlast
      (by decide : isBlank '<' = false) (by decide)
    rw [List.nil_append, List.append_nil] at hends
    rw [String.toList_ofList, hends]
  refine ⟨?_, (attrs_of_readOpenTag? hread).symm⟩
  rw [ofMarkup_opening (by rw [htrim]; exact hread), opened]
  rfl

theorem spells_digit {d : Char} (h : Json.isDigit d = true) (hzero : d ≠ '0') :
    Json.Spells (.int (Json.natOf [d])) [d] := by
  rw [Json.Spells]
  refine ⟨false, [d], rfl, .inr ⟨⟨d, [], rfl, hzero⟩, List.forall_mem_singleton.mpr h⟩, ?_, rfl⟩
  rw [List.length_singleton]
  omega

theorem padded_points :
    Json.Padded (Json.Spells (.arr [.int 1, .int 2])) ['[', '1', ',', ' ', '2', ']'] := by
  have hone : Json.Spells (.int 1) ['1'] := spells_digit (by decide) (by decide)
  have htwo : Json.Spells (.int 2) ['2'] := spells_digit (by decide) (by decide)
  refine ⟨[], ['[', '1', ',', ' ', '2', ']'], [], rfl, List.forall_mem_nil _,
    List.forall_mem_nil _, ?_⟩
  rw [Json.Spells]
  refine ⟨['1', ',', ' ', '2'], rfl, ?_⟩
  rw [Json.SpellsItems]
  refine ⟨['1'], [' ', '2'], rfl, ?_, ?_⟩
  · exact ⟨[], _, [], rfl, List.forall_mem_nil _, List.forall_mem_nil _, hone⟩
  · rw [Json.SpellsItems]
    exact ⟨[' '], _, [], rfl, List.forall_mem_singleton.mpr (by decide), List.forall_mem_nil _,
      htwo⟩

theorem isAttributeName_of_all {c : Char} {cs : List Char} (hc : isAttributeStart c = true)
    (hcs : cs.all isAttributeChar = true) : IsAttributeName (c :: cs) :=
  ⟨c, cs, rfl, hc, List.all_eq_true.mp hcs⟩

/-- A chart with a list, a text that holds what could end the tag, and a bare name. -/
def chartTag : WrittenTag where
  name := "Chart".toList
  isName := ⟨⟨_, _, rfl, by decide⟩, List.all_eq_true.mp (by decide)⟩
  attrs := [
    ⟨"points".toList, isAttributeName_of_all (by decide) (by decide), .json _ _ padded_points
      (.cons (by decide) (.cons (by decide) (.cons (by decide) (.cons (by decide) (.cons (by decide)
        (.cons (by decide) .nil))))))⟩,
    ⟨"title".toList, isAttributeName_of_all (by decide) (by decide),
      .double "a /> b='c'".toList (by decide)⟩,
    ⟨"wide".toList, isAttributeName_of_all (by decide) (by decide), .flag⟩]
  distinct := by decide

theorem ofMarkup_written_chart :
    String.ofList chartTag.text = "<Chart points=\x7b[1, 2]\x7d title=\"a /> b='c'\" wide />" ∧
      chartTag.fields =
        [("points", .arr [.int 1, .int 2]), ("title", .str "a /> b='c'"), ("wide", .bool true)] ∧
      ofMarkup (fun _ ↦ pure []) (String.ofList chartTag.text) true =
        pure [Node.component "Chart" chartTag.fields []
          [("source", .str (String.ofList chartTag.text))]] ∧
      parseAttributes (attributeText chartTag.text) = chartTag.fields :=
  ⟨rfl, rfl, ofMarkup_written chartTag (fun _ ↦ pure []) true⟩

end Reading

end SafeMarkdown.Component
