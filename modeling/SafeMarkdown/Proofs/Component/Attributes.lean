import SafeMarkdown.Component.Tag
import SafeMarkdown.Proofs.Text.Scanning

/-!
# The text of attributes

An attribute is read from a text exactly if the text writes it. So it is read the same whatever
follows it, as long as this does not go on with it, and reading the attributes of a tag one after
the other finds what a search for attributes finds in the text that they take up.
-/

namespace SafeMarkdown.Component

open Text

variable {s rest : List Char}

section Signs

/-- The first character of a text that is not white space. -/
def firstSign? (s : List Char) : Option Char :=
  (s.dropWhile isBlank).head?

theorem dropWhile_ne_nil_of_firstSign {c : Char} (h : firstSign? s = some c) :
    s.dropWhile isBlank ≠ [] := by
  intro hnil
  rw [firstSign?, hnil] at h
  cases h

theorem firstSign?_append {c : Char} (h : firstSign? s = some c) (r : List Char) :
    firstSign? (s ++ r) = some c := by
  rw [firstSign?, dropWhile_append_of_ne_nil (dropWhile_ne_nil_of_firstSign h), List.head?_append]
  rw [firstSign?] at h
  rw [h]
  rfl

theorem ne_nil_of_firstSign {c : Char} (h : firstSign? s = some c) : s ≠ [] := by
  rintro rfl
  cases h

end Signs

section Expressions

/-- A text in which braces come in pairs that do not nest. -/
inductive FlatBraces : List Char → Prop
  | nil : FlatBraces []
  | cons {c : Char} {s : List Char} (hc : isBrace c = false) (hs : FlatBraces s) :
      FlatBraces (c :: s)
  | pair {inner s : List Char} (hinner : ∀ c ∈ inner, isBrace c = false) (hs : FlatBraces s) :
      FlatBraces ('\x7b' :: (inner ++ '\x7d' :: s))

/-- What is open inside of an expression is a part without braces and the brace that ends it. -/
def IsExpression (inner : Bool) (s : List Char) : Prop :=
  if inner then ∃ first more, s = first ++ '\x7d' :: more ∧ (∀ c ∈ first, isBrace c = false) ∧
    FlatBraces more
  else FlatBraces s

theorem isBrace_eq_false {c : Char} : isBrace c = false ↔ c ≠ '\x7b' ∧ c ≠ '\x7d' := by
  rw [isBrace, Bool.or_eq_false_iff, beq_eq_false_iff_ne, beq_eq_false_iff_ne]

theorem isExpression_of_expressionLength? {inner : Bool} {n : Nat}
    (h : expressionLength? inner s = some n) :
    ∃ text after, s = text ++ '\x7d' :: after ∧ text.length = n ∧ IsExpression inner text := by
  induction s generalizing inner n with
  | nil => cases h
  | cons c s ih =>
      unfold expressionLength? at h
      split at h
      · rename_i hopen
        cases beq_iff_eq.mp hopen
        cases inner with
        | true => cases h
        | false =>
            rw [if_neg Bool.false_ne_true] at h
            obtain ⟨m, hm, rfl⟩ := Option.map_eq_some_iff.mp h
            obtain ⟨text, after, rfl, rfl, first, more, rfl, hfirst, hmore⟩ := ih hm
            exact ⟨'\x7b' :: (first ++ '\x7d' :: more), after, rfl, rfl, .pair hfirst hmore⟩
      · rename_i hopen
        split at h
        · rename_i hclose
          cases beq_iff_eq.mp hclose
          cases inner with
          | true =>
              rw [if_pos rfl] at h
              obtain ⟨m, hm, rfl⟩ := Option.map_eq_some_iff.mp h
              obtain ⟨text, after, rfl, rfl, htext⟩ := ih hm
              exact ⟨'\x7d' :: text, after, rfl, rfl, [], text, rfl, List.forall_mem_nil _, htext⟩
          | false =>
              cases h
              exact ⟨[], s, rfl, rfl, .nil⟩
        · rename_i hclose
          have hc : isBrace c = false :=
            isBrace_eq_false.mpr ⟨by simpa using hopen, by simpa using hclose⟩
          obtain ⟨m, hm, rfl⟩ := Option.map_eq_some_iff.mp h
          obtain ⟨text, after, rfl, rfl, htext⟩ := ih hm
          refine ⟨c :: text, after, rfl, rfl, ?_⟩
          cases inner with
          | true =>
              obtain ⟨first, more, rfl, hfirst, hmore⟩ := htext
              exact ⟨c :: first, more, rfl, List.forall_mem_cons.mpr ⟨hc, hfirst⟩, hmore⟩
          | false => exact .cons hc htext

theorem expressionLength?_cons {inner : Bool} {c : Char} (hc : isBrace c = false) (s : List Char) :
    expressionLength? inner (c :: s) = (expressionLength? inner s).map (· + 1) := by
  obtain ⟨hopen, hclose⟩ := isBrace_eq_false.mp hc
  rw [expressionLength?, if_neg (by simpa using hopen), if_neg (by simpa using hclose)]

theorem expressionLength?_inner {first : List Char} (h : ∀ c ∈ first, isBrace c = false)
    (s : List Char) : expressionLength? true (first ++ '\x7d' :: s) =
      (expressionLength? false s).map (· + (first.length + 1)) := by
  induction first with
  | nil => rfl
  | cons c first ih =>
      rw [List.forall_mem_cons] at h
      rw [List.cons_append, expressionLength?_cons h.1, ih h.2, Option.map_map]
      rfl

theorem FlatBraces.expressionLength? {text : List Char} (h : FlatBraces text) (after : List Char) :
    Component.expressionLength? false (text ++ '\x7d' :: after) = some text.length := by
  induction h with
  | nil => rfl
  | cons hc hs ih =>
      rw [List.cons_append, expressionLength?_cons hc, ih]
      rfl
  | @pair inner s hinner hs ih =>
      have hopen :
          Component.expressionLength? false ('\x7b' :: (inner ++ '\x7d' :: s) ++ '\x7d' :: after) =
            (Component.expressionLength? true
              (inner ++ '\x7d' :: (s ++ '\x7d' :: after))).map (· + 1) := by
        rw [List.cons_append, List.append_assoc]
        rfl
      rw [hopen, expressionLength?_inner hinner, ih]
      rw [Option.map_some, Option.map_some, List.length_cons, List.length_append, List.length_cons]
      exact congrArg some (by omega)

end Expressions

section Values

/-- The ways to write the value of an attribute behind its name. -/
inductive WritesValue : AttributeSource → List Char → Prop
  | double {before after t : List Char} (hbefore : ∀ c ∈ before, isBlank c = true)
      (hafter : ∀ c ∈ after, isBlank c = true) (ht : '"' ∉ t) :
      WritesValue (.text t) (before ++ '=' :: (after ++ '"' :: (t ++ ['"'])))
  | single {before after t : List Char} (hbefore : ∀ c ∈ before, isBlank c = true)
      (hafter : ∀ c ∈ after, isBlank c = true) (ht : '\'' ∉ t) :
      WritesValue (.text t) (before ++ '=' :: (after ++ '\'' :: (t ++ ['\''])))
  | expression {before after e : List Char} (hbefore : ∀ c ∈ before, isBlank c = true)
      (hafter : ∀ c ∈ after, isBlank c = true) (he : FlatBraces e) :
      WritesValue (.expression e) (before ++ '=' :: (after ++ '\x7b' :: (e ++ ['\x7d'])))

theorem readQuoted?_eq_some {quote : Char} {t after : List Char} :
    readQuoted? quote s = some (t, after) ↔ s = t ++ quote :: after ∧ quote ∉ t := by
  constructor
  · intro h
    unfold readQuoted? at h
    split at h
    · rename_i c behind hdrop
      cases h
      have hc : c = quote := by
        have hnot := List.head?_dropWhile_not (· != quote) s
        rw [hdrop] at hnot
        simpa using hnot
      refine ⟨?_, fun hmem ↦ ?_⟩
      · have hsplit := List.takeWhile_append_dropWhile (p := (· != quote)) (l := s)
        rw [hdrop, hc] at hsplit
        exact hsplit.symm
      · have hall := List.all_eq_true.mp (List.all_takeWhile (p := (· != quote)) (l := s)) _ hmem
        simp at hall
    · cases h
  · rintro ⟨rfl, ht⟩
    have hall : ∀ c ∈ t, (c != quote) = true := by
      intro c hc
      rw [bne_iff_ne]
      rintro rfl
      exact ht hc
    rw [readQuoted?, List.dropWhile_append_of_pos hall, List.takeWhile_append_of_pos hall,
      List.dropWhile_cons_of_neg (by simp), List.takeWhile_cons_of_neg (by simp), List.append_nil]

theorem exists_blanks {c : Char} {t : List Char} (h : s.dropWhile isBlank = c :: t) :
    ∃ blanks, s = blanks ++ c :: t ∧ ∀ d ∈ blanks, isBlank d = true := by
  refine ⟨s.takeWhile isBlank, ?_, List.all_eq_true.mp List.all_takeWhile⟩
  rw [← h, List.takeWhile_append_dropWhile]

theorem dropWhile_blanks {blanks : List Char} (h : ∀ c ∈ blanks, isBlank c = true) {c : Char}
    (hc : isBlank c = false) (t : List Char) :
    (blanks ++ c :: t).dropWhile isBlank = c :: t := by
  rw [List.dropWhile_append_of_pos h, dropWhile_of_head rfl hc]

/-- White space around the equals sign does not matter. -/
theorem readValue?_blanks {before between : List Char} (hbefore : ∀ c ∈ before, isBlank c = true)
    (hbetween : ∀ c ∈ between, isBlank c = true) {c : Char} (hc : isBlank c = false)
    (t : List Char) :
    readValue? (before ++ '=' :: (between ++ c :: t)) = readValue? ('=' :: c :: t) := by
  have hequals : isBlank '=' = false := by decide
  have hplain : ('=' :: c :: t).dropWhile isBlank = '=' :: c :: t := dropWhile_of_head rfl hequals
  have hvalue : (c :: t).dropWhile isBlank = c :: t := dropWhile_of_head rfl hc
  rw [readValue?, readValue?, dropWhile_blanks hbefore hequals, hplain]
  simp only [dropWhile_blanks hbetween hc, hvalue]

/-- A value is read exactly if it is written at the start of the text. -/
theorem readValue?_eq_some {source : AttributeSource} {after : List Char} :
    readValue? s = some (source, after) ↔ ∃ text, s = text ++ after ∧ WritesValue source text := by
  constructor
  · intro h
    unfold readValue? at h
    split at h
    · rename_i value hvalue
      obtain ⟨before, rfl, hbefore⟩ := exists_blanks hvalue
      split at h
      · rename_i more hmore
        obtain ⟨between, rfl, hbetween⟩ := exists_blanks hmore
        obtain ⟨⟨t, behind⟩, hread, heq⟩ := Option.map_eq_some_iff.mp h
        cases heq
        obtain ⟨rfl, ht⟩ := readQuoted?_eq_some.mp hread
        exact ⟨_, by simp, .double hbefore hbetween ht⟩
      · rename_i more hmore
        obtain ⟨between, rfl, hbetween⟩ := exists_blanks hmore
        obtain ⟨⟨t, behind⟩, hread, heq⟩ := Option.map_eq_some_iff.mp h
        cases heq
        obtain ⟨rfl, ht⟩ := readQuoted?_eq_some.mp hread
        exact ⟨_, by simp, .single hbefore hbetween ht⟩
      · rename_i more hmore
        obtain ⟨between, rfl, hbetween⟩ := exists_blanks hmore
        obtain ⟨n, hread, heq⟩ := Option.map_eq_some_iff.mp h
        obtain ⟨e, behind, rfl, rfl, he⟩ := isExpression_of_expressionLength? hread
        rw [List.take_left' rfl, List.drop_length_add_append] at heq
        cases heq
        exact ⟨_, by simp, .expression hbefore hbetween he⟩
      · cases h
    · cases h
  · rintro ⟨text, rfl, h⟩
    cases h with
    | @double before between t hbefore hbetween ht =>
        have hread : readQuoted? '"' (t ++ '"' :: after) = some (t, after) :=
          readQuoted?_eq_some.mpr ⟨rfl, ht⟩
        simp only [List.append_assoc, List.cons_append, List.nil_append]
        rw [readValue?_blanks hbefore hbetween (by decide)]
        exact congrArg (Option.map _) hread
    | @single before between t hbefore hbetween ht =>
        have hread : readQuoted? '\'' (t ++ '\'' :: after) = some (t, after) :=
          readQuoted?_eq_some.mpr ⟨rfl, ht⟩
        simp only [List.append_assoc, List.cons_append, List.nil_append]
        rw [readValue?_blanks hbefore hbetween (by decide)]
        exact congrArg (Option.map _) hread
    | @expression before between e hbefore hbetween he =>
        have hread := he.expressionLength? after
        simp only [List.append_assoc, List.cons_append, List.nil_append]
        rw [readValue?_blanks hbefore hbetween (by decide)]
        refine (congrArg (Option.map _) hread).trans ?_
        rw [Option.map_some, List.take_left' rfl, List.drop_length_add_append]
        rfl

theorem readValue?_append {source : AttributeSource} {after : List Char}
    (h : readValue? s = some (source, after)) (r : List Char) :
    readValue? (s ++ r) = some (source, after ++ r) := by
  obtain ⟨text, rfl, hwrites⟩ := readValue?_eq_some.mp h
  exact readValue?_eq_some.mpr ⟨text, List.append_assoc _ _ _, hwrites⟩

/-- Before anything but an equals sign there is no value. -/
theorem readValue?_eq_none {c : Char} (h : firstSign? s = some c) (hc : c ≠ '=') :
    readValue? s = none := by
  unfold readValue?
  split
  · rename_i value hvalue
    rw [firstSign?, hvalue] at h
    cases h
    exact (hc rfl).elim
  · rfl

end Values

section Attributes

/-- The name of an attribute, as it is written. -/
structure IsAttributeName (name : List Char) : Prop where
  exists_cons : ∃ c cs, name = c :: cs ∧ isAttributeStart c = true ∧
    ∀ d ∈ cs, isAttributeChar d = true

/-- The text of an attribute in front of another one: with a value, or a name that neither goes on
nor is followed by a value. -/
inductive WritesAttribute : Attribute → List Char → List Char → Prop
  | valued {name text after : List Char} {source : AttributeSource} (hname : IsAttributeName name)
      (hend : ∀ c ∈ text.head?, isAttributeChar c = false) (htext : WritesValue source text) :
      WritesAttribute ⟨name, source⟩ (name ++ text) after
  | flag {name after : List Char} (hname : IsAttributeName name)
      (hend : ∀ c ∈ after.head?, isAttributeChar c = false) (hafter : readValue? after = none) :
      WritesAttribute ⟨name, .flag⟩ name after

theorem span_attributeName {cs : List Char} (h : ∀ c ∈ cs, isAttributeChar c = true)
    (hrest : ∀ c ∈ rest.head?, isAttributeChar c = false) :
    (cs ++ rest).takeWhile isAttributeChar = cs ∧ (cs ++ rest).dropWhile isAttributeChar = rest := by
  rw [List.takeWhile_append_of_pos h, List.dropWhile_append_of_pos h]
  cases rest with
  | nil => exact ⟨List.append_nil cs, rfl⟩
  | cons c rest =>
      have hc : isAttributeChar c = false := hrest c rfl
      rw [List.takeWhile_cons_of_neg (by simp [hc]), List.dropWhile_cons_of_neg (by simp [hc]),
        List.append_nil]
      exact ⟨rfl, rfl⟩

theorem WritesValue.head?_append {source : AttributeSource} {text : List Char}
    (h : WritesValue source text) (after : List Char) : (text ++ after).head? = text.head? := by
  have hne : text ≠ [] := by cases h <;> simp
  obtain ⟨c, cs, rfl⟩ := List.exists_cons_of_ne_nil hne
  rfl

theorem head?_dropWhile {p : Char → Bool} (s : List Char) :
    ∀ c ∈ (s.dropWhile p).head?, p c = false := by
  intro c hc
  have hnot := List.head?_dropWhile_not p s
  rw [hc] at hnot
  simpa using hnot

/-- An attribute is read exactly if it is written at the start of the text. -/
theorem readAttribute?_eq_some {a : Attribute} {after : List Char} :
    readAttribute? s = some (a, after) ↔
      ∃ text, s = text ++ after ∧ WritesAttribute a text after := by
  constructor
  · intro h
    cases s with
    | nil => cases h
    | cons c s =>
        rw [readAttribute?] at h
        split at h
        · rename_i hc
          have hname : IsAttributeName (c :: s.takeWhile isAttributeChar) :=
            ⟨c, _, rfl, hc, List.all_eq_true.mp List.all_takeWhile⟩
          have hsplit := List.takeWhile_append_dropWhile (p := isAttributeChar) (l := s)
          have hend := head?_dropWhile (p := isAttributeChar) s
          dsimp only at h
          split at h
          · rename_i source more hvalue
            cases h
            obtain ⟨text, htext, hwrites⟩ := readValue?_eq_some.mp hvalue
            refine ⟨_, ?_, .valued hname ?_ hwrites⟩
            · rw [List.append_assoc, ← htext, List.cons_append, hsplit]
            · rw [htext, hwrites.head?_append] at hend
              exact hend
          · rename_i hnone
            cases h
            refine ⟨_, ?_, .flag hname hend hnone⟩
            rw [List.cons_append, hsplit]
        · cases h
  · rintro ⟨text, rfl, h⟩
    cases h with
    | @valued name text after source hname hend htext =>
        obtain ⟨c, cs, rfl, hc, hcs⟩ := hname.exists_cons
        have hvalue : readValue? (text ++ after) = some (source, after) :=
          readValue?_eq_some.mpr ⟨text, rfl, htext⟩
        rw [← htext.head?_append after] at hend
        obtain ⟨htake, hdrop⟩ := span_attributeName hcs hend
        rw [List.append_assoc, List.cons_append, readAttribute?, if_pos hc]
        dsimp only
        rw [htake, hdrop, hvalue]
    | @flag name after hname hend hafter =>
        obtain ⟨c, cs, rfl, hc, hcs⟩ := hname.exists_cons
        obtain ⟨htake, hdrop⟩ := span_attributeName hcs hend
        rw [List.cons_append, readAttribute?, if_pos hc]
        dsimp only
        rw [htake, hdrop, hafter]

/-- An attribute is also written in front of less. -/
theorem WritesAttribute.of_append {a : Attribute} {text after r : List Char}
    (h : WritesAttribute a text (after ++ r)) : WritesAttribute a text after := by
  cases h with
  | valued hname hend htext => exact .valued hname hend htext
  | flag hname hend hafter =>
      refine .flag hname (fun c hc ↦ ?_) ?_
      · apply hend c
        rw [List.head?_append, hc]
        rfl
      · cases hvalue : readValue? after with
        | none => rfl
        | some found =>
            rw [readValue?_append hvalue] at hafter
            cases hafter

/-- What does not go on with an attribute may go on itself. -/
theorem WritesAttribute.append {a : Attribute} {text after : List Char} {c : Char}
    (h : WritesAttribute a text after) (hafter : firstSign? after = some c) (hc : c ≠ '=')
    (r : List Char) : WritesAttribute a text (after ++ r) := by
  cases h with
  | valued hname hend htext => exact .valued hname hend htext
  | flag hname hend _ =>
      obtain ⟨d, cs, rfl⟩ := List.exists_cons_of_ne_nil (ne_nil_of_firstSign hafter)
      exact .flag hname hend (readValue?_eq_none (firstSign?_append hafter r) hc)

theorem WritesAttribute.length_pos {a : Attribute} {text after : List Char}
    (h : WritesAttribute a text after) : 0 < text.length := by
  have hname {name : List Char} (h : IsAttributeName name) : 0 < name.length := by
    obtain ⟨c, cs, rfl, -⟩ := h.exists_cons
    exact Nat.succ_pos _
  cases h with
  | valued h _ _ =>
      rw [List.length_append]
      exact Nat.add_pos_left (hname h) _
  | flag h _ _ => exact hname h

theorem readAttribute?_append {a : Attribute} {after : List Char} {c : Char}
    (h : readAttribute? s = some (a, after)) (hafter : firstSign? after = some c) (hc : c ≠ '=')
    (r : List Char) : readAttribute? (s ++ r) = some (a, after ++ r) := by
  obtain ⟨text, rfl, hwrites⟩ := readAttribute?_eq_some.mp h
  exact readAttribute?_eq_some.mpr
    ⟨text, List.append_assoc _ _ _, hwrites.append hafter hc r⟩

theorem readAttribute?_suffix {a : Attribute} {after : List Char}
    (h : readAttribute? s = some (a, after)) : after <:+ s ∧ after.length < s.length := by
  obtain ⟨text, rfl, hwrites⟩ := readAttribute?_eq_some.mp h
  refine ⟨List.suffix_append _ _, ?_⟩
  rw [List.length_append]
  exact Nat.lt_add_of_pos_left hwrites.length_pos

/-- An attribute does not start where a tag ends. -/
theorem readAttribute?_eq_none {c : Char} (h : s.head? = some c) (hc : isAttributeStart c = false) :
    readAttribute? s = none := by
  cases s with
  | nil => rfl
  | cons d s =>
      cases h
      rw [readAttribute?, hc]
      rfl

theorem not_isBlank_of_isAttributeStart {c : Char} (h : isAttributeStart c = true) :
    isBlank c = false := by
  rw [isAttributeStart, Bool.or_eq_true, Bool.or_eq_true, beq_iff_eq, beq_iff_eq] at h
  rcases h with (halpha | rfl) | rfl
  · exact isBlank_of_isAlphanum ((isAlphanum_iff c).mpr (.inl halpha))
  · rfl
  · rfl

theorem attributesIn_blanks {blanks : List Char} (h : ∀ c ∈ blanks, isBlank c = true) (fuel : Nat)
    (s : List Char) : attributesIn (blanks.length + fuel) (blanks ++ s) = attributesIn fuel s := by
  induction blanks with
  | nil => rw [List.length_nil, Nat.zero_add, List.nil_append]
  | cons c blanks ih =>
      rw [List.forall_mem_cons] at h
      have hstart : isAttributeStart c = false := by
        rw [← Bool.not_eq_true]
        intro hstart
        rw [not_isBlank_of_isAttributeStart hstart] at h
        cases h.1
      have hnone : readAttribute? (c :: (blanks ++ s)) = none :=
        readAttribute?_eq_none rfl hstart
      rw [List.length_cons, Nat.add_right_comm, List.cons_append, attributesIn, hnone]
      exact ih h.2

/-- The attributes of a tag are those in the text that they take up. -/
theorem attributesIn_of_tagAttributes {fuel : Nat} {attrs : List Attribute}
    (h : tagAttributes fuel s = (attrs, rest)) :
    ∃ taken, s = taken ++ rest ∧
      ∀ fuel', taken.length ≤ fuel' → attributesIn fuel' taken = attrs := by
  have hself {s : List Char} {attrs : List Attribute} (h : ([], s) = (attrs, rest)) : ∃ taken,
      s = taken ++ rest ∧ ∀ fuel', taken.length ≤ fuel' → attributesIn fuel' taken = attrs := by
    cases h
    refine ⟨[], rfl, fun fuel' _ ↦ ?_⟩
    cases fuel' <;> rfl
  induction fuel generalizing s attrs with
  | zero => exact hself h
  | succ fuel ih =>
      rw [tagAttributes] at h
      dsimp only at h
      split at h
      · exact hself h
      · split at h
        · rename_i a after hread
          cases hmore : tagAttributes fuel after with
          | mk more behind =>
              rw [hmore] at h
              cases h
              obtain ⟨text, htext, hwrites⟩ := readAttribute?_eq_some.mp hread
              obtain ⟨taken, rfl, htaken⟩ := ih hmore
              have hpos := hwrites.length_pos
              have hblanks : ∀ c ∈ s.takeWhile isBlank, isBlank c = true :=
                List.all_eq_true.mp List.all_takeWhile
              refine ⟨s.takeWhile isBlank ++ (text ++ taken), ?_, fun fuel' hfuel' ↦ ?_⟩
              · rw [List.append_assoc, List.append_assoc, ← htext,
                  List.takeWhile_append_dropWhile]
              · -- behind the white space stands the attribute, also without what follows the tag
                rw [List.length_append, List.length_append] at hfuel'
                obtain ⟨k, rfl⟩ : ∃ k, fuel' = (s.takeWhile isBlank).length + (k + 1) :=
                  ⟨fuel' - (s.takeWhile isBlank).length - 1, by omega⟩
                have hfirst : readAttribute? (text ++ taken) = some (a, taken) :=
                  readAttribute?_eq_some.mpr ⟨text, rfl, hwrites.of_append⟩
                obtain ⟨c, cs, rfl⟩ := List.exists_cons_of_length_pos hpos
                rw [attributesIn_blanks hblanks, List.cons_append, attributesIn,
                  ← List.cons_append, hfirst]
                simp only
                rw [htaken k (by omega)]
        · exact hself h

end Attributes

end SafeMarkdown.Component
