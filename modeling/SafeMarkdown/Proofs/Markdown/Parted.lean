import Mathlib.Algebra.Ring.Int.Defs
import SafeMarkdown.Proofs.Markdown.Nested
import SafeMarkdown.Proofs.Markdown.Tokens

/-!
# Footnotes at the end of a document

The text that is left when the footnotes have been moved out of a document closes at least as many
containers as it opens. Behind it come the footnotes, one for each number, and the content of each is
nested.
-/

namespace SafeMarkdown.Markdown

/-- A token of a document, but for those around a footnote. -/
inductive DocumentToken (count : Nat) (t : Token) : Prop
  | opens (h : OpeningToken t)
  | closes (h : ClosingToken t)
  | leaf (h : LeafToken count t)

/-- How many more containers are open behind a token. -/
def Nesting.depth : Nesting → Int
  | .opens => 1
  | .closes => -1
  | .single => 0

/-- How many more containers some tokens open than they close. -/
def depth (ts : List Token) : Int :=
  (ts.map fun t ↦ t.nesting.depth).sum

@[simp]
theorem depth_nil : depth [] = 0 :=
  rfl

@[simp]
theorem depth_cons (t : Token) (ts : List Token) : depth (t :: ts) = t.nesting.depth + depth ts := by
  simp [depth]

@[simp]
theorem depth_reverse (ts : List Token) : depth ts.reverse = depth ts := by
  simp [depth, List.sum_reverse]

theorem LeafToken.nesting {count : Nat} {t : Token} (h : LeafToken count t) :
    t.nesting = .single := by
  cases h <;> rfl

theorem type_ne_definition {t : Token} (h : t.type ∉ structuralTypes) :
    t.type ≠ "footnote_reference_open" ∧ t.type ≠ "footnote_reference_close" := by
  constructor
  · intro heq
    rw [heq] at h
    exact h (by decide)
  · intro heq
    rw [heq] at h
    exact h (by decide)

namespace Parted

variable {count : Nat} {p q r : Parted} {t : Token} {ts us : List Token}

theorem add_open (h : t.type = "footnote_reference_open") :
    ∃ label, p.add t = { p with inside := true, current := [], label } := by
  rw [add, if_pos (by simp [h])]
  exact ⟨_, rfl⟩

theorem add_close (h : t.type = "footnote_reference_close") :
    p.add t = { p with inside := false, definitions := (p.label, p.current) :: p.definitions } := by
  rw [add, if_neg (by simp [h]), if_pos (by simp [h])]

theorem add_inside
    (h : t.type ≠ "footnote_reference_open" ∧ t.type ≠ "footnote_reference_close")
    (hp : p.inside = true) : p.add t = { p with current := t :: p.current } := by
  rw [add, if_neg (by simp [h.1]), if_neg (by simp [h.2]), if_pos hp]

theorem add_outside
    (h : t.type ≠ "footnote_reference_open" ∧ t.type ≠ "footnote_reference_close")
    (hp : p.inside = false) : p.add t = { p with text := t :: p.text } := by
  rw [add, if_neg (by simp [h.1]), if_neg (by simp [h.2]), if_neg (by simp [hp])]

/-- Whether the footnotes that are apart from the text are nested. -/
structure Sound (count : Nat) (p : Parted) : Prop where
  text : ∀ t ∈ p.text, DocumentToken count t
  definitions : ∀ d ∈ p.definitions, Nested False count d.2.reverse
  current : p.inside = false → Nested False count p.current.reverse

/-- What parting some nested tokens does. Behind them no definition is open unless one was open before
them and they define no other. -/
structure Passes (count : Nat) (p : Parted) (ts : List Token) (q : Parted) : Prop where
  sound : p.Sound count → q.Sound count
  outside : p.inside = false → q.inside = false
  depth : depth q.text ≤ depth p.text
  inside : q.inside = true →
    p.inside = true ∧ q.current = ts.reverse ++ p.current ∧ Nested False count ts

theorem Passes.append (h : Passes count p ts q) (h' : Passes count q us r) :
    Passes count p (ts ++ us) r where
  sound := fun hp ↦ h'.sound (h.sound hp)
  outside := fun hp ↦ h'.outside (h.outside hp)
  depth := Int.le_trans h'.depth h.depth
  inside := by
    intro hr
    obtain ⟨hq, hcurrent', hus⟩ := h'.inside hr
    obtain ⟨hp, hcurrent, hts⟩ := h.inside hq
    refine ⟨hp, ?_, hts.append hus⟩
    rw [hcurrent', hcurrent, List.reverse_append, List.append_assoc]

theorem Sound.add_inside (h : p.Sound count) (hp : p.inside = true) :
    Sound count { p with current := t :: p.current } :=
  ⟨h.text, h.definitions, fun hout ↦ by simp [hp] at hout⟩

theorem Sound.add_outside (h : p.Sound count) (ht : DocumentToken count t) :
    Sound count { p with text := t :: p.text } :=
  ⟨List.forall_mem_cons.mpr ⟨ht, h.text⟩, h.definitions, h.current⟩

theorem passes_leaf (ht : LeafToken count t) (p : Parted) : Passes count p [t] (p.add t) := by
  cases hp : p.inside with
  | true =>
      rw [Parted.add_inside ht.type_ne hp]
      refine ⟨fun h ↦ h.add_inside hp, fun hout ↦ ?_, Int.le_refl _, fun _ ↦ ⟨hp, rfl, .of_leaf ht⟩⟩
      simp [hp] at hout
  | false =>
      rw [Parted.add_outside ht.type_ne hp]
      refine ⟨fun h ↦ h.add_outside (.leaf ht), fun _ ↦ hp, ?_, fun hin ↦ ?_⟩
      · simp [ht.nesting, Nesting.depth]
      · simp [hp] at hin

/-- A container may begin in a definition and end outside of it, but not the other way round. -/
theorem passes_container {o c : Token} (ho : OpeningToken o) (hc : ClosingToken c)
    (h : Passes count (p.add o) ts q) : Passes count p (o :: ts ++ [c]) (q.add c) := by
  have hotype := type_ne_definition ho.type
  have hctype := type_ne_definition hc.type
  have hodepth : o.nesting.depth = 1 := by rw [ho.nesting]; rfl
  have hcdepth : c.nesting.depth = -1 := by rw [hc.nesting]; rfl
  cases hp : p.inside with
  | true =>
      rw [Parted.add_inside hotype hp] at h
      cases hq : q.inside with
      | true =>
          rw [Parted.add_inside hctype hq]
          refine ⟨fun hs ↦ (h.sound (hs.add_inside hp)).add_inside hq, fun hout ↦ ?_, h.depth,
            fun _ ↦ ⟨hp, ?_, ?_⟩⟩
          · simp [hp] at hout
          · simp [(h.inside hq).2.1]
          · exact .enclose ho hc (h.inside hq).2.2
      | false =>
          rw [Parted.add_outside hctype hq]
          refine ⟨fun hs ↦ (h.sound (hs.add_inside hp)).add_outside (.closes hc), fun _ ↦ hq, ?_,
            fun hin ↦ ?_⟩
          · have hdepth := h.depth
            simp only [depth_cons, hcdepth] at hdepth ⊢
            omega
          · simp [hq] at hin
  | false =>
      rw [Parted.add_outside hotype hp] at h
      have hq := h.outside hp
      rw [Parted.add_outside hctype hq]
      refine ⟨fun hs ↦ (h.sound (hs.add_outside (.opens ho))).add_outside (.closes hc), fun _ ↦ hq,
        ?_, fun hin ↦ ?_⟩
      · have hdepth := h.depth
        simp only [depth_cons, hodepth, hcdepth] at hdepth ⊢
        omega
      · simp [hq] at hin

theorem passes_definition {o c : Token} (ho : o.type = "footnote_reference_open")
    (hc : c.type = "footnote_reference_close") (h : Passes count (p.add o) ts q) :
    Passes count p (o :: ts ++ [c]) (q.add c) := by
  obtain ⟨label, hopen⟩ := add_open (p := p) ho
  rw [hopen] at h
  rw [add_close hc]
  refine ⟨fun hs ↦ ?_, fun _ ↦ rfl, h.depth, fun hin ↦ by simp at hin⟩
  have hq := h.sound ⟨hs.text, hs.definitions, fun hout ↦ by simp at hout⟩
  have hcurrent : Nested False count q.current.reverse := by
    cases hin : q.inside with
    | true =>
        obtain ⟨-, hcurrent, hts⟩ := h.inside hin
        rw [hcurrent, List.append_nil, List.reverse_reverse]
        exact hts
    | false => exact hq.current hin
  exact ⟨hq.text, List.forall_mem_cons.mpr ⟨hcurrent, hq.definitions⟩, fun _ ↦ hcurrent⟩

theorem passes_foldl {defines : Prop} (h : Nested defines count ts) (p : Parted) :
    Passes count p ts (ts.foldl Parted.add p) := by
  induction h generalizing p with
  | nil => exact ⟨id, id, Int.le_refl _, fun hp ↦ ⟨hp, rfl, .nil⟩⟩
  | leaf ht hrest ih => exact (passes_leaf ht p).append (ih (p.add _))
  | @container o c content ts ho hc hcontent hrest ihcontent ih =>
      rw [List.append_cons, List.foldl_append]
      refine .append ?_ (ih _)
      rw [List.foldl_append]
      exact passes_container ho hc (ihcontent (p.add o))
  | @definition o c content ts hdefines ho hc hcontent hrest ihcontent ih =>
      rw [List.append_cons, List.foldl_append]
      refine .append ?_ (ih _)
      rw [List.foldl_append]
      exact passes_definition ho hc (ihcontent (p.add o))

theorem sound_empty : Sound count {} :=
  ⟨List.forall_mem_nil _, List.forall_mem_nil _, fun _ ↦ .nil⟩

end Parted

section Notes

variable {count : Nat} {ts : List Token}

theorem nested_anchors (n k : Nat) : Nested False count (anchors n k) := by
  refine .of_leaves ?_
  intro t ht
  obtain ⟨i, -, rfl⟩ := List.mem_map.mp ht
  exact .backlink n i

/-- Before the token that closes the last container, more leaves find a place. -/
theorem Nested.insertLast {c : Token} {us : List Token} (h : Nested False count (ts ++ [c]))
    (hc : ¬ LeafToken count c) (hus : Nested False count us) :
    Nested False count (ts ++ us ++ [c]) := by
  generalize hall : ts ++ [c] = all at h
  induction h generalizing ts with
  | nil => simp at hall
  | leaf ht hrest ih =>
      cases ts with
      | nil =>
          cases hall
          exact (hc ht).elim
      | cons t' ts =>
          cases hall
          exact .leaf ht (ih rfl)
  | @container o c' content rest ho hc' hcontent hrest ihcontent ih =>
      rcases List.eq_nil_or_concat rest with rfl | ⟨rest, last, rfl⟩
      · obtain ⟨rfl, heq⟩ := List.append_inj' hall rfl
        cases heq
        exact .enclose ho hc' (hcontent.append hus)
      · have hall : ts ++ [c] = (o :: content ++ c' :: rest) ++ [last] := by simpa using hall
        obtain ⟨rfl, heq⟩ := List.append_inj' hall rfl
        cases heq
        have hmore := @ih rest (by simp)
        have hcontainer := Nested.container ho hc' hcontent hmore
        simpa using hcontainer
  | definition hdefines ho hc' hcontent hrest ihcontent ih => exact hdefines.elim

theorem nested_addToLastParagraph {added : List Token} (hts : Nested False count ts)
    (hadded : Nested False count added) : Nested False count (addToLastParagraph ts added) := by
  unfold addToLastParagraph
  split
  · rename_i c hlast
    split
    · rename_i htype
      obtain ⟨init, rfl⟩ := List.getLast?_eq_some_iff.mp hlast
      rw [List.dropLast_concat]
      refine hts.insertLast ?_ hadded
      intro hleaf
      have hclose : c.type = "paragraph_close" := by simpa using htype
      cases hleaf <;> simp at hclose
    · exact hts.append hadded
  · exact hadded

theorem nested_noteContent {definitions : List (String × List Token)} (n : Nat) {note : Note}
    (hdefinitions : ∀ d ∈ definitions, Nested False count d.2.reverse) (hnote : note.InLine count) :
    Nested False count (noteContent definitions n note) := by
  cases note with
  | defined label k =>
      refine nested_addToLastParagraph ?_ (nested_anchors n _)
      cases hlookup : definitions.lookup label with
      | none => exact .nil
      | some us =>
          obtain ⟨before, after, rfl, -⟩ := List.lookup_eq_some_iff.mp hlookup
          exact hdefinitions (label, us) (by simp)
  | inline content tokens =>
      refine .enclose ⟨rfl, ?_, ?_, List.forall_mem_nil _⟩ ⟨rfl, ?_⟩
        (.leaf (.text content hnote) (nested_anchors n 1))
      · simp [Token.opening, structuralTypes]
      · simp [Token.opening, blockTags]
      · simp [Token.closing, structuralTypes]

/-- The tokens of all footnotes of a document. -/
def sectionTokens (items : List (Nat × List Token)) : List Token :=
  if items.isEmpty then []
  else
    Token.opening "footnote_block_open" "" :: items.flatMap (fun i ↦ itemTokens i.1 i.2) ++
      [Token.closing "footnote_block_close" ""]

/-- The tokens of a document: those of the text, and then for each number that its references may have
a footnote. -/
structure Laid (count : Nat) (text : List Token) (items : List (Nat × List Token)) : Prop where
  depth : depth text ≤ 0
  text : ∀ t ∈ text, DocumentToken count t
  numbers : items.map Prod.fst = List.range count
  items : ∀ i ∈ items, Nested False count i.2

theorem exists_laid_withNotes {notes : Notes} (hnotes : notes.InLine)
    (hts : Nested True notes.count ts) :
    ∃ text items, withNotes notes ts = text ++ sectionTokens items ∧ Laid notes.count text items := by
  have hpasses := Parted.passes_foldl hts {}
  have hsound := hpasses.sound Parted.sound_empty
  set p := ts.foldl Parted.add {} with hp
  refine ⟨p.text.reverse, notes.notes.zipIdx.map fun x ↦ (x.2, noteContent p.definitions x.2 x.1),
    ?_, ⟨?_, ?_, ?_, ?_⟩⟩
  · have hitems : notes.notes.zipIdx.flatMap (fun x ↦ noteTokens p.definitions x.2 x.1) =
        (notes.notes.zipIdx.map fun x ↦ (x.2, noteContent p.definitions x.2 x.1)).flatMap
          fun i ↦ itemTokens i.1 i.2 := by
      simp [List.flatMap_map, noteTokens_eq]
    rw [withNotes, ← hp, sectionTokens, ← hitems]
    dsimp only
    cases hempty : notes.notes with
    | nil => simp
    | cons note rest => simp [List.zipIdx_cons]
  · rw [depth_reverse]
    exact hpasses.depth
  · exact fun t ht ↦ hsound.text t (List.mem_reverse.mp ht)
  · rw [List.map_map, Notes.count, List.range_eq_range', ← List.zipIdx_map_snd]
    rfl
  · intro i hi
    obtain ⟨⟨note, n⟩, hmem, rfl⟩ := List.mem_map.mp hi
    have hnote := hnotes note (List.fst_mem_of_mem_zipIdx hmem)
    exact nested_noteContent n hsound.definitions hnote

end Notes

theorem exists_laid_tokens {dialect : Dialect} {body : String} {ts : List Token}
    (h : tokens dialect body = .ok ts) :
    ∃ count text items, ts = text ++ sectionTokens items ∧ Laid count text items := by
  obtain ⟨⟨us, notes⟩, hread, h⟩ := bind_eq_ok.mp h
  cases h
  have hblocks := nested_containerTokens dialect _ false none (blocksOf_leveled dialect (normalize body))
  obtain ⟨hus, hnotes, -⟩ := nested_readTexts hblocks (inLine_foldl_define _) hread
  obtain ⟨text, items, heq, hlaid⟩ := exists_laid_withNotes hnotes hus
  exact ⟨notes.count, text, items, heq, hlaid⟩

end SafeMarkdown.Markdown
