import SafeMarkdown.Proofs.Sanitizer.Bearers
import SafeMarkdown.Proofs.Schema.Decisions
import SafeMarkdown.Sanitizer.Run

/-!
# Respelled trees

Two trees that differ in the spelling of URLs only are sanitized alike. Each step of sanitizing is
followed in both trees at once: raw markup is resolved alike, as no attribute of a waiting node is
looked at, and filtering keeps the same nodes and the same attributes, for which it decides alike.
Only what tells ids apart may go different ways in the end, and it does so only where the id of a
component has another spelling.
-/

namespace SafeMarkdown.Sanitizer

open Node

/-- Where values may have another spelling: in nodes of which kind, and under which names. -/
abbrev Places := NodeKind → String → Prop

/-- Any attribute of a component, and any attribute of an element but its id. -/
def valuePlaces : Places := fun kind name ↦
  kind = .component ∨ kind = .element ∧ Text.lowercase name ≠ "id"

/-- Any attribute of a component or an element but its id. -/
def plainPlaces : Places := fun kind name ↦
  (kind = .component ∨ kind = .element) ∧ Text.lowercase name ≠ "id"

/-- A field, and the same field with its value disguised if it is a text in such a place. -/
inductive RespelledField (places : Places) (kind : NodeKind) :
    String × Value → String × Value → Prop where
  | same (f : String × Value) : RespelledField places kind f f
  | disguised {name v v' : String} (hplace : places kind name)
      (h : Schema.Disguises v.toList v'.toList) :
      RespelledField places kind (name, .str v) (name, .str v')

/-- Fields of the same names, with values that are disguised in such places. -/
abbrev RespelledFields (places : Places) (kind : NodeKind) : Fields → Fields → Prop :=
  List.Forall₂ (RespelledField places kind)

/-- A tree, and the same tree with values disguised in such places. -/
inductive Respelled (places : Places) : Node → Node → Prop where
  | mk {kind : NodeKind} {tag value : Option String} {attrs attrs' data : Fields}
      {children children' : List Node}
      (hattrs : RespelledFields places kind attrs attrs')
      (hchildren : List.Forall₂ (Respelled places) children children') :
      Respelled places ⟨kind, tag, attrs, children, value, data⟩
        ⟨kind, tag, attrs', children', value, data⟩

variable {places : Places} {s : Schema} {n n' : Node} {ns ns' ms ms' : List Node}

namespace Respelled

mutual

theorem refl (places : Places) : (n : Node) → Respelled places n n
  | ⟨_, _, _, children, _, _⟩ =>
    .mk (List.forall₂_same.mpr fun f _ ↦ .same f) (refl_all places children)

theorem refl_all (places : Places) : (ns : List Node) → List.Forall₂ (Respelled places) ns ns
  | [] => .nil
  | n :: rest => .cons (refl places n) (refl_all places rest)

end

theorem isText_eq (h : Respelled places n n') : n'.isText = n.isText := by
  cases h
  rfl

theorem isRaw_eq (h : Respelled places n n') : n'.isRaw = n.isRaw := by
  cases h
  rfl

theorem text_eq (h : Respelled places n n') : n'.text = n.text := by
  cases h
  rfl

theorem append (h : List.Forall₂ (Respelled places) ns ns')
    (h' : List.Forall₂ (Respelled places) ms ms') :
    List.Forall₂ (Respelled places) (ns ++ ms) (ns' ++ ms') :=
  List.rel_append h h'

/-- Texts are joined alike. -/
theorem mergeText (h : List.Forall₂ (Respelled places) ns ns') :
    List.Forall₂ (Respelled places) (mergeText ns) (mergeText ns') := by
  induction h with
  | nil => exact .nil
  | @cons n n' ns ns' hn _ ih =>
      rw [Node.mergeText, Node.mergeText, hn.isText_eq, hn.text_eq]
      split
      · split
        · exact ih
        · generalize Node.mergeText ns = before, Node.mergeText ns' = after at ih
          cases ih with
          | nil => exact .cons hn .nil
          | cons hm hrest =>
              dsimp only
              rw [hm.isText_eq, hm.text_eq]
              split
              · exact .cons (refl places _) hrest
              · exact .cons hn (.cons hm hrest)
      · exact .cons hn ih

mutual

theorem walk : (n n' : Node) → Respelled places n n' →
    List.Forall₂ (Respelled places) n.walk n'.walk
  | ⟨_, _, _, children, _, _⟩, ⟨_, _, _, children', _, _⟩, h => by
      rw [walk_mk, walk_mk]
      have hall := h
      cases h with
      | mk hattrs hchildren => exact .cons hall (walkAll children children' hchildren)

theorem walkAll : (ns ns' : List Node) → List.Forall₂ (Respelled places) ns ns' →
    List.Forall₂ (Respelled places) (walk.walkAll ns) (walk.walkAll ns')
  | [], [], _ => by
      rw [Node.walk.walkAll]
      exact .nil
  | n :: rest, n' :: rest', h => by
      cases h with
      | cons hn hrest =>
          rw [Node.walk.walkAll, Node.walk.walkAll]
          exact append (walk n n' hn) (walkAll rest rest' hrest)

end

end Respelled

section Agreeing

variable {α β γ δ : Type} {R : α → β → Prop} {S : γ → δ → Prop}

/-- Two runs that end alike: with the same failure, or with related results and the same
removals. -/
inductive Agree (R : α → β → Prop) : Except Failure (α × List Removal) →
    Except Failure (β × List Removal) → Prop where
  | ok {a : α} {b : β} (h : R a b) (removals : List Removal) :
      Agree R (.ok (a, removals)) (.ok (b, removals))
  | error (e : Failure) : Agree R (.error e) (.error e)

theorem Agree.cases {x : Except Failure (α × List Removal)} {y : Except Failure (β × List Removal)}
    (h : Agree R x y) : (∃ e, x = .error e ∧ y = .error e) ∨
      ∃ a b removals, x = .ok (a, removals) ∧ y = .ok (b, removals) ∧ R a b := by
  cases h with
  | ok hab removals => exact .inr ⟨_, _, removals, rfl, rfl, hab⟩
  | error e => exact .inl ⟨e, rfl, rfl⟩

theorem Agree.bind {x : Except Failure (α × List Removal)} {y : Except Failure (β × List Removal)}
    {f : α × List Removal → Except Failure (γ × List Removal)}
    {g : β × List Removal → Except Failure (δ × List Removal)} (h : Agree R x y)
    (hnext : ∀ a b removals, R a b → Agree S (f (a, removals)) (g (b, removals))) :
    Agree S (x >>= f) (y >>= g) := by
  cases h with
  | ok hab removals => exact hnext _ _ removals hab
  | error e => exact .error e

end Agreeing

section Admission

/-- Waiting nodes under the same indices. -/
def RespelledSlots (places : Places) : Slots → Slots → Prop :=
  List.Forall₂ fun slot slot' ↦ slot'.1 = slot.1 ∧ Respelled places slot.2 slot'.2

/-- What is left to admit in both runs. -/
structure RespelledAdmission (places : Places) (a a' : Admission) : Prop where
  slots : RespelledSlots places a.slots a'.slots
  removals : a'.removals = a.removals

theorem siblingsText_of_respelled (h : List.Forall₂ (Respelled places) ns ns') (index : Nat) :
    siblingsText index ns' = siblingsText index ns := by
  induction h generalizing index with
  | nil => rfl
  | cons hn _ ih =>
      rw [siblingsText, siblingsText, ih, siblingText, siblingText, hn.isRaw_eq, hn.isText_eq,
        hn.text_eq]

theorem respelledSlots_slotsOf (h : List.Forall₂ (Respelled places) ns ns') (index : Nat) :
    RespelledSlots places (slotsOf index ns) (slotsOf index ns') := by
  induction h generalizing index with
  | nil => exact .nil
  | cons hn _ ih =>
      rw [slotsOf, slotsOf, hn.isRaw_eq, hn.isText_eq]
      split
      · exact ih (index + 1)
      · exact .cons ⟨rfl, hn⟩ (ih (index + 1))

theorem any_isRaw_of_respelled (h : List.Forall₂ (Respelled places) ns ns') :
    ns'.any isRaw = ns.any isRaw := by
  induction h with
  | nil => rfl
  | cons hn _ ih => rw [List.any_cons, List.any_cons, hn.isRaw_eq, ih]

variable {slots slots' : Slots}

theorem RespelledSlots.lookup (h : RespelledSlots places slots slots') (index : String) :
    slots.lookup index = none ∧ slots'.lookup index = none ∨
      ∃ n n', slots.lookup index = some n ∧ slots'.lookup index = some n' ∧
        Respelled places n n' := by
  induction h with
  | nil => exact .inl ⟨rfl, rfl⟩
  | @cons slot slot' _ _ hslot _ ih =>
      obtain ⟨key, n⟩ := slot
      obtain ⟨key', n'⟩ := slot'
      obtain ⟨rfl, hn⟩ : key' = key ∧ Respelled places n n' := hslot
      rw [List.lookup_cons, List.lookup_cons]
      split
      · exact .inr ⟨n, n', rfl, rfl, hn⟩
      · exact ih

theorem RespelledSlots.without (h : RespelledSlots places slots slots') (index : String) :
    RespelledSlots places (slots.filter fun slot ↦ slot.1 != index)
      (slots'.filter fun slot ↦ slot.1 != index) := by
  induction h with
  | nil => exact .nil
  | cons hslot _ ih =>
      rw [List.filter_cons, List.filter_cons, hslot.1]
      split
      · exact .cons hslot ih
      · exact ih

/-- The node that waits under the index of a slot fills it and waits no longer. -/
theorem run_ofItem_of_slot {name index : String} {attrs : List (String × String)}
    (hname : (name == slotTag) = true) (hindex : attrs.lookup slotAttribute = some index)
    (children : List Html.Item) (a : Admission) :
    (ofItem (.element name attrs children)).run a =
      ((a.slots.lookup index).toList,
        { a with slots := if (a.slots.lookup index).isSome then
            a.slots.filter fun slot ↦ slot.1 != index else a.slots }) := by
  rw [ofItem, if_pos hname]
  cases hslot : a.slots.lookup index with
  | none =>
      simp [hindex, hslot]
      rfl
  | some n =>
      simp [hindex, hslot]
      rfl

mutual

/-- An item becomes the same nodes, but for what fills its slots. -/
theorem respelled_ofItem : (i : Html.Item) → (a a' : Admission) → RespelledAdmission places a a' →
    List.Forall₂ (Respelled places) ((ofItem i).run a).1 ((ofItem i).run a').1 ∧
      RespelledAdmission places ((ofItem i).run a).2 ((ofItem i).run a').2
  | .text _, _, _, h => by
      rw [ofItem]
      exact ⟨Respelled.refl_all places _, h⟩
  | .markup, _, _, h => by
      rw [ofItem]
      exact ⟨.nil, h.slots, congrArg (Removal.stripMarkup :: ·) h.removals⟩
  | .element name attrs children, a, a', h => by
      by_cases hname : (name == slotTag) = true
      · cases hindex : attrs.lookup slotAttribute with
        | none =>
            rw [ofItem, if_pos hname, hindex]
            exact ⟨.nil, h⟩
        | some index =>
            rw [run_ofItem_of_slot hname hindex, run_ofItem_of_slot hname hindex]
            rcases h.slots.lookup index with ⟨hn, hn'⟩ | ⟨n, n', hn, hn', hrel⟩
            · rw [hn, hn']
              exact ⟨.nil, h⟩
            · rw [hn, hn']
              exact ⟨.cons hrel .nil, h.slots.without index, h.removals⟩
      · obtain ⟨hnodes, hrest⟩ := respelled_ofItems children a a' h
        rw [ofItem, if_neg hname, StateT.run_bind, StateT.run_bind]
        exact ⟨.cons (.mk (List.forall₂_same.mpr fun f _ ↦ .same f) hnodes) .nil, hrest⟩

theorem respelled_ofItems : (items : List Html.Item) → (a a' : Admission) →
    RespelledAdmission places a a' →
    List.Forall₂ (Respelled places) ((ofItems items).run a).1 ((ofItems items).run a').1 ∧
      RespelledAdmission places ((ofItems items).run a).2 ((ofItems items).run a').2
  | [], _, _, h => by
      rw [ofItems]
      exact ⟨.nil, h⟩
  | i :: rest, a, a', h => by
      obtain ⟨hfirst, hmid⟩ := respelled_ofItem i a a' h
      obtain ⟨hothers, hend⟩ := respelled_ofItems rest _ _ hmid
      rw [ofItems, StateT.run_bind, StateT.run_bind]
      exact ⟨Respelled.append hfirst hothers, hend⟩

end

theorem respelled_resolve (h : List.Forall₂ (Respelled places) ns ns') :
    Agree (List.Forall₂ (Respelled places)) (resolve ns) (resolve ns') := by
  rw [resolve, resolve, any_isRaw_of_respelled h, siblingsText_of_respelled h]
  split
  · cases Html.parseFragment (siblingsText 0 ns) with
    | error e => exact .error e
    | ok items =>
        have hstart : RespelledAdmission places { slots := slotsOf 0 ns }
            { slots := slotsOf 0 ns' } := ⟨respelledSlots_slotsOf h 0, rfl⟩
        obtain ⟨hnodes, hend⟩ := respelled_ofItems items _ _ hstart
        change Agree _ (.ok (_, ((ofItems items).run _).2.removals.reverse))
          (.ok (_, ((ofItems items).run _).2.removals.reverse))
        rw [hend.removals]
        exact .ok hnodes _
  · exact .ok h []

mutual

theorem respelled_admitBelow : (n n' : Node) → Respelled places n n' →
    Agree (Respelled places) (admitBelow n) (admitBelow n')
  | ⟨_, _, _, children, _, _⟩, ⟨_, _, _, children', _, _⟩, h => by
      have hall := h
      cases h with
      | mk hattrs hchildren =>
          rw [admitBelow, admitBelow]
          split
          · exact .ok hall []
          · refine (respelled_admitEach children children' hchildren).bind fun ns ns' below hns ↦ ?_
            exact (respelled_resolve hns).bind fun ms ms' here hms ↦ .ok (.mk hattrs hms) _

theorem respelled_admitEach : (ns ns' : List Node) → List.Forall₂ (Respelled places) ns ns' →
    Agree (List.Forall₂ (Respelled places)) (admitEach ns) (admitEach ns')
  | [], [], _ => by
      rw [admitEach]
      exact .ok .nil []
  | n :: rest, n' :: rest', h => by
      cases h with
      | cons hn hrest =>
          rw [admitEach, admitEach]
          refine (respelled_admitBelow n n' hn).bind fun m m' first hm ↦ ?_
          exact (respelled_admitEach rest rest' hrest).bind fun ms ms' others hms ↦
            .ok (.cons hm hms) _

end

/-- Raw markup is resolved alike. -/
theorem respelled_admission (h : List.Forall₂ (Respelled places) ns ns') :
    Agree (List.Forall₂ (Respelled places)) (admission ns) (admission ns') := by
  rw [admission, admission]
  refine (respelled_admitEach ns ns' h).bind fun ms ms' below hms ↦ ?_
  exact (respelled_resolve hms).bind fun out out' here hout ↦ .ok hout _

end Admission

section Filter

variable {kind : NodeKind} {f f' : String × Value} {fs fs' gs gs' : Fields}

theorem RespelledField.name_eq (h : RespelledField places kind f f') : f'.1 = f.1 := by
  cases h with
  | same => rfl
  | disguised => rfl

theorem staysAttribute_of_respelled (tag : String) (h : RespelledField places kind f f') :
    staysAttribute s tag f' = staysAttribute s tag f := by
  cases h with
  | same => rfl
  | disguised hplace h =>
      rw [staysAttribute, staysAttribute]
      dsimp only
      rw [s.allowsUrl_of_disguises _ h]

theorem allowsComponentAttribute_of_disguises {v v' : String} (name : String)
    (h : Schema.Disguises v.toList v'.toList) :
    allowsComponentAttribute name (.str v') = allowsComponentAttribute name (.str v) := by
  rw [allowsComponentAttribute, allowsComponentAttribute, Schema.urlScheme_of_disguises h]

theorem allowsComponentAttribute_of_respelled (h : RespelledField places kind f f') :
    allowsComponentAttribute f'.1 f'.2 = allowsComponentAttribute f.1 f.2 := by
  cases h with
  | same => rfl
  | disguised hplace h => exact allowsComponentAttribute_of_disguises _ h

namespace RespelledFields

theorem map_name (h : RespelledFields places kind fs fs') {α : Type} (g : String → α) :
    (fs'.map fun f ↦ g f.1) = fs.map fun f ↦ g f.1 := by
  induction h with
  | nil => rfl
  | cons hf _ ih => rw [List.map_cons, List.map_cons, ih, hf.name_eq]

theorem filter {p : String × Value → Bool}
    (hp : ∀ f f', RespelledField places kind f f' → p f' = p f)
    (h : RespelledFields places kind fs fs') :
    RespelledFields places kind (fs.filter p) (fs'.filter p) := by
  induction h with
  | nil => exact .nil
  | cons hf _ ih =>
      rw [List.filter_cons, List.filter_cons, hp _ _ hf]
      split
      · exact .cons hf ih
      · exact ih

theorem set (h : RespelledFields places kind fs fs') (hf : RespelledField places kind f f') :
    RespelledFields places kind (Fields.set fs f.1 f.2) (Fields.set fs' f'.1 f'.2) := by
  induction h with
  | nil => exact .cons hf .nil
  | @cons g g' _ _ hg hrest ih =>
      obtain ⟨name, v⟩ := g
      obtain ⟨name', v'⟩ := g'
      obtain rfl : name' = name := hg.name_eq
      obtain ⟨key, w⟩ := f
      obtain ⟨key', w'⟩ := f'
      obtain rfl : key' = key := hf.name_eq
      rw [Fields.set, Fields.set]
      split
      · rename_i hkey
        obtain rfl := beq_iff_eq.mp hkey
        exact .cons hf hrest
      · exact .cons hg ih

theorem foldl_set (hstart : RespelledFields places kind gs gs')
    (h : RespelledFields places kind fs fs') :
    RespelledFields places kind (fs.foldl (fun acc f ↦ acc.set f.1 f.2) gs)
      (fs'.foldl (fun acc f ↦ acc.set f.1 f.2) gs') := by
  induction h generalizing gs gs' with
  | nil => exact hstart
  | cons hf _ ih => exact ih (hstart.set hf)

end RespelledFields

/-- Places in elements that do not depend on the case of names. -/
def CaseFree (places : Places) : Prop :=
  ∀ name, places .element name → places .element (Text.lowercase name)

theorem respelledField_lowercase (hplaces : CaseFree places)
    (h : RespelledField places .element f f') :
    RespelledField places .element (Text.lowercase f.1, f.2) (Text.lowercase f'.1, f'.2) := by
  cases h with
  | same => exact .same _
  | disguised hplace h => exact .disguised (hplaces _ hplace) h

/-- The attributes of an element are kept and stripped alike. -/
theorem respelled_filterAttributes (hplaces : CaseFree places) (tag : String)
    (h : RespelledFields places .element fs fs') :
    RespelledFields places .element (filterAttributes s tag fs).1 (filterAttributes s tag fs').1 ∧
      (filterAttributes s tag fs').2 = (filterAttributes s tag fs).2 := by
  rw [filterAttributes_eq, filterAttributes_eq]
  have hstays := h.filter fun f f' hf ↦ staysAttribute_of_respelled (s := s) tag hf
  have hstripped := h.filter (p := fun f ↦ !staysAttribute s tag f) fun f f' hf ↦ by
    rw [staysAttribute_of_respelled tag hf]
  refine ⟨RespelledFields.foldl_set .nil ?_, hstripped.map_name _⟩
  exact List.forall₂_map_left_iff.mpr (List.forall₂_map_right_iff.mpr
    (hstays.imp fun f f' hf ↦ respelledField_lowercase hplaces hf))

/-- So are those of a component. -/
theorem respelled_filterComponentAttributes (tag : Option String)
    (h : RespelledFields places kind fs fs') :
    RespelledFields places kind (filterComponentAttributes tag fs).1
        (filterComponentAttributes tag fs').1 ∧
      (filterComponentAttributes tag fs').2 = (filterComponentAttributes tag fs).2 := by
  have hkept := h.filter (p := fun f ↦ allowsComponentAttribute f.1 f.2) fun f f' hf ↦
    allowsComponentAttribute_of_respelled hf
  have hstripped := h.filter (p := fun f ↦ !allowsComponentAttribute f.1 f.2) fun f f' hf ↦ by
    rw [allowsComponentAttribute_of_respelled hf]
  exact ⟨hkept, hstripped.map_name _⟩

theorem any_isEventHandler_of_respelled (h : RespelledFields places kind fs fs') :
    (fs'.any fun f ↦ Schema.isEventHandler f.1) = fs.any fun f ↦ Schema.isEventHandler f.1 := by
  induction h with
  | nil => rfl
  | cons hf _ ih => rw [List.any_cons, List.any_cons, hf.name_eq, ih]

mutual

theorem respelled_filterNode (hplaces : CaseFree places) : (n n' : Node) → Respelled places n n' →
    List.Forall₂ (Respelled places) (filterNode s n).1 (filterNode s n').1 ∧
      (filterNode s n').2 = (filterNode s n).2
  | ⟨kind, tag, attrs, children, value, data⟩, ⟨_, _, attrs', children', _, _⟩, h => by
      have hall := h
      cases h with
      | mk hattrs hchildren =>
          obtain ⟨hnodes, hbelow⟩ := respelled_filterAll hplaces children children' hchildren
          have hjoined := Respelled.mergeText hnodes
          cases kind with
          | text =>
              rw [filterNode, filterNode]
              exact ⟨.cons hall .nil, rfl⟩
          | raw =>
              rw [filterNode, filterNode]
              exact ⟨.nil, rfl⟩
          | root =>
              rw [filterNode, filterNode]
              exact ⟨.cons (.mk hattrs hjoined) .nil, hbelow⟩
          | component =>
              obtain ⟨hkept, hstripped⟩ := respelled_filterComponentAttributes tag hattrs
              rw [filterNode, filterNode]
              split
              · exact ⟨.nil, rfl⟩
              · dsimp only
                rw [hstripped, hbelow]
                exact ⟨.cons (.mk hkept hjoined) .nil, rfl⟩
          | element =>
              obtain ⟨hkept, hstripped⟩ := respelled_filterAttributes (s := s) hplaces
                (Text.lowercase (tag.getD "")) hattrs
              rw [filterNode, filterNode]
              dsimp only
              rw [any_isEventHandler_of_respelled hattrs]
              split
              · rw [hstripped, hbelow]
                exact ⟨.cons (.mk hkept hjoined) .nil, rfl⟩
              · split
                · exact ⟨.nil, rfl⟩
                · rw [hbelow]
                  exact ⟨hjoined, rfl⟩

theorem respelled_filterAll (hplaces : CaseFree places) : (ns ns' : List Node) →
    List.Forall₂ (Respelled places) ns ns' →
    List.Forall₂ (Respelled places) (filterAll s ns).1 (filterAll s ns').1 ∧
      (filterAll s ns').2 = (filterAll s ns).2
  | [], [], _ => by
      rw [filterAll]
      exact ⟨.nil, rfl⟩
  | n :: rest, n' :: rest', h => by
      cases h with
      | cons hn hrest =>
          obtain ⟨hfirst, hremovals⟩ := respelled_filterNode hplaces n n' hn
          obtain ⟨hothers, hmore⟩ := respelled_filterAll hplaces rest rest' hrest
          rw [filterAll, filterAll]
          dsimp only
          rw [hremovals, hmore]
          exact ⟨Respelled.append hfirst hothers, rfl⟩

end

/-- Filtering decides alike. -/
theorem respelled_filterChildren (hplaces : CaseFree places)
    (h : List.Forall₂ (Respelled places) ns ns') :
    List.Forall₂ (Respelled places) (filterChildren s ns).1 (filterChildren s ns').1 ∧
      (filterChildren s ns').2 = (filterChildren s ns).2 := by
  obtain ⟨hnodes, hremovals⟩ := respelled_filterAll (s := s) hplaces ns ns' h
  exact ⟨Respelled.mergeText hnodes, hremovals⟩

end Filter

section Ids

variable {kind : NodeKind} {name : String} {fs fs' : Fields} {reserved kept : List String}

/-- A field has the same value in both, or it is a text in both. -/
theorem RespelledFields.get?_cases (h : RespelledFields places kind fs fs') (name : String) :
    fs'.get? name = fs.get? name ∨ places kind name ∧
      ∃ v v', fs.get? name = some (.str v) ∧ fs'.get? name = some (.str v') := by
  induction h with
  | nil => exact .inl rfl
  | @cons f f' _ _ hf _ ih =>
      cases hf with
      | same =>
          obtain ⟨key, v⟩ := f
          rw [Fields.get?_cons, Fields.get?_cons]
          split
          · exact .inl rfl
          · exact ih
      | @disguised key v v' hplace h =>
          rw [Fields.get?_cons, Fields.get?_cons]
          split
          · rename_i hkey
            exact .inr ⟨hkey ▸ hplace, v, v', rfl, rfl⟩
          · exact ih

theorem RespelledFields.get?_eq (h : RespelledFields places kind fs fs')
    (hname : ¬ places kind name) : fs'.get? name = fs.get? name :=
  (h.get?_cases name).resolve_right fun hother ↦ hname hother.1

theorem Respelled.erase (h : RespelledFields places kind fs fs') (name : String) :
    RespelledFields places kind (Fields.erase fs name) (Fields.erase fs' name) :=
  h.filter fun _ _ hf ↦ by rw [hf.name_eq]

/-- Two reservations fail alike, or neither fails. -/
theorem reservedId_of_respelled (h : Respelled places n n') :
    (∃ id id', reservedId n = .ok id ∧ reservedId n' = .ok id') ∨
      ∃ e, reservedId n = .error e ∧ reservedId n' = .error e := by
  cases h with
  | @mk kind tag value attrs attrs' data children children' hattrs hchildren =>
      rcases hattrs.get?_cases "id" with heq | ⟨-, v, v', hv, hv'⟩
      · have hsame : reservedId ⟨kind, tag, attrs', children', value, data⟩ =
            reservedId ⟨kind, tag, attrs, children, value, data⟩ := by
          rw [reservedId, reservedId, flagged, flagged, heq]
        rw [hsame]
        cases reservedId ⟨kind, tag, attrs, children, value, data⟩ with
        | ok id => exact .inl ⟨id, id, rfl, rfl⟩
        | error e => exact .inr ⟨e, rfl, rfl⟩
      · rw [reservedId, reservedId, hv, hv']
        exact .inl ⟨_, _, rfl, rfl⟩

theorem reservedIds_of_respelled (h : List.Forall₂ (Respelled places) ns ns') :
    (∃ ids ids', reservedIds ns = .ok ids ∧ reservedIds ns' = .ok ids') ∨
      ∃ e, reservedIds ns = .error e ∧ reservedIds ns' = .error e := by
  induction h with
  | nil => exact .inl ⟨[], [], rfl, rfl⟩
  | cons hn _ ih =>
      rw [reservedIds, reservedIds]
      rcases reservedId_of_respelled hn with ⟨id, id', hid, hid'⟩ | ⟨e, he, he'⟩
      · rw [hid, hid']
        rcases ih with ⟨ids, ids', hids, hids'⟩ | ⟨e, he, he'⟩
        · rw [hids, hids']
          exact .inl ⟨_, _, rfl, rfl⟩
        · rw [he, he']
          exact .inr ⟨e, rfl, rfl⟩
      · rw [he, he']
        exact .inr ⟨e, rfl, rfl⟩

/-- Making ids distinct strips nothing but ids. -/
theorem exists_of_mem_passAll (reserved kept : List String) (ns : List Node) :
    ∀ r ∈ (passAll reserved kept ns).2.2, ∃ tag, r = .stripAttribute tag "id" := by
  induction ns generalizing kept with
  | nil => exact List.forall_mem_nil _
  | cons n ns ih =>
      rw [passAll]
      refine List.forall_mem_append.mpr ⟨?_, ih _⟩
      rw [pass]
      cases n.elementId? with
      | none => exact List.forall_mem_nil _
      | some id =>
          dsimp only
          split
          · exact List.forall_mem_nil _
          · exact List.forall_mem_singleton.mpr ⟨n.tag, rfl⟩

theorem exists_of_mem_distinctIds (reserved kept : List String) (n : Node) :
    ∀ r ∈ (distinctIds reserved kept n).2.2, ∃ tag, r = .stripAttribute tag "id" := by
  have hpass := congrArg (fun x ↦ x.2.2) (distinctIds_eq_passAll reserved kept n)
  dsimp only at hpass
  rw [hpass]
  exact exists_of_mem_passAll reserved kept n.walk

mutual

theorem Respelled.withoutIds : (n n' : Node) → Respelled places n n' →
    Respelled places n.withoutIds n'.withoutIds
  | ⟨kind, _, _, children, _, _⟩, ⟨_, _, _, children', _, _⟩, h => by
      cases h with
      | mk hattrs hchildren =>
          rw [Node.withoutIds, Node.withoutIds]
          refine .mk ?_ (Respelled.withoutIdsAll children children' hchildren)
          split
          · exact Respelled.erase hattrs "id"
          · exact hattrs

theorem Respelled.withoutIdsAll : (ns ns' : List Node) → List.Forall₂ (Respelled places) ns ns' →
    List.Forall₂ (Respelled places) (Node.withoutIdsAll ns) (Node.withoutIdsAll ns')
  | [], [], _ => by
      rw [Node.withoutIdsAll]
      exact .nil
  | n :: rest, n' :: rest', h => by
      cases h with
      | cons hn hrest =>
          rw [Node.withoutIdsAll, Node.withoutIdsAll]
          exact .cons (Respelled.withoutIds n n' hn) (Respelled.withoutIdsAll rest rest' hrest)

end

section Fixed

/-- Places that no id stands in. -/
def SparesIds (places : Places) : Prop :=
  ∀ kind, ¬ places kind "id"

theorem reservedIds_eq_of_respelled (hplaces : SparesIds places)
    (h : List.Forall₂ (Respelled places) ns ns') : reservedIds ns' = reservedIds ns := by
  induction h with
  | nil => rfl
  | cons hn _ ih =>
      rw [reservedIds, reservedIds, ih]
      cases hn with
      | mk hattrs hchildren =>
          rw [reservedId, reservedId, flagged, flagged, hattrs.get?_eq (hplaces _)]

theorem elementId?_of_respelled (hplaces : SparesIds places) (h : Respelled places n n') :
    n'.elementId? = n.elementId? := by
  cases h with
  | mk hattrs hchildren => rw [elementId?, elementId?, idText?, idText?, hattrs.get?_eq (hplaces _)]

mutual

/-- Where all ids are spelled alike, the same ones are kept. -/
theorem respelled_distinctIds (hplaces : SparesIds places) (reserved kept : List String) :
    (n n' : Node) → Respelled places n n' →
    Respelled places (distinctIds reserved kept n).1 (distinctIds reserved kept n').1 ∧
      (distinctIds reserved kept n').2 = (distinctIds reserved kept n).2
  | ⟨kind, tag, attrs, children, value, data⟩, ⟨_, _, attrs', children', _, _⟩, h => by
      have hsame := elementId?_of_respelled hplaces h
      cases h with
      | mk hattrs hchildren =>
          cases hid : elementId? ⟨kind, tag, attrs, children, value, data⟩ with
          | none =>
              obtain ⟨hnodes, hrest⟩ :=
                respelled_distinctIdsAll hplaces reserved kept children children' hchildren
              rw [distinctIds_of_elementId?_eq_none hid,
                distinctIds_of_elementId?_eq_none (hsame.trans hid)]
              exact ⟨.mk hattrs hnodes, hrest⟩
          | some id =>
              cases hkeeps : keepsId reserved kept
                  (flagged ⟨kind, tag, attrs, children, value, data⟩ "level") id with
              | true =>
                  obtain ⟨hnodes, hrest⟩ := respelled_distinctIdsAll hplaces reserved (id :: kept)
                    children children' hchildren
                  rw [distinctIds_of_keeps hid hkeeps,
                    distinctIds_of_keeps (hsame.trans hid) hkeeps]
                  exact ⟨.mk hattrs hnodes, hrest⟩
              | false =>
                  obtain ⟨hnodes, hrest⟩ :=
                    respelled_distinctIdsAll hplaces reserved kept children children' hchildren
                  rw [distinctIds_of_loses hid hkeeps,
                    distinctIds_of_loses (hsame.trans hid) hkeeps]
                  dsimp only
                  rw [hrest]
                  exact ⟨.mk (Respelled.erase hattrs "id") hnodes, rfl⟩

theorem respelled_distinctIdsAll (hplaces : SparesIds places) (reserved kept : List String) :
    (ns ns' : List Node) → List.Forall₂ (Respelled places) ns ns' →
    List.Forall₂ (Respelled places) (distinctIdsAll reserved kept ns).1
        (distinctIdsAll reserved kept ns').1 ∧
      (distinctIdsAll reserved kept ns').2 = (distinctIdsAll reserved kept ns).2
  | [], [], _ => by
      rw [distinctIdsAll]
      exact ⟨.nil, rfl⟩
  | n :: rest, n' :: rest', h => by
      cases h with
      | cons hn hrest =>
          obtain ⟨hfirst, hkept⟩ := respelled_distinctIds hplaces reserved kept n n' hn
          obtain ⟨hothers, hmore⟩ := respelled_distinctIdsAll hplaces reserved
            (distinctIds reserved kept n).2.1 rest rest' hrest
          have hfree := congrArg Prod.fst hkept
          have hlost := congrArg Prod.snd hkept
          rw [distinctIdsAll, distinctIdsAll]
          dsimp only at hfree hlost ⊢
          rw [hfree, hlost]
          exact ⟨.cons hfirst hothers, congrArg (fun r ↦ (r.1, _ ++ r.2)) hmore⟩

end

end Fixed

end Ids

theorem caseFree_valuePlaces : CaseFree valuePlaces := by
  rintro name (h | ⟨-, hname⟩)
  · cases h
  · exact .inr ⟨rfl, by rwa [Text.lowercase_lowercase]⟩

theorem caseFree_plainPlaces : CaseFree plainPlaces := by
  rintro name ⟨-, hname⟩
  exact ⟨.inr rfl, by rwa [Text.lowercase_lowercase]⟩

theorem sparesIds_plainPlaces : SparesIds plainPlaces := by
  rintro kind ⟨-, hname⟩
  exact hname (by decide)

/-- What filtering leaves of a tree, and what was removed from it. -/
def filterTree (s : Schema) (tree : Node) : Except Failure (Node × List Removal) := do
  let (admitted, markup) ← admission tree.children
  let (kept, filtered) := filterChildren s admitted
  return ({ tree with children := kept }, markup ++ filtered)

theorem sanitize_of_filterTree_eq_error {tree : Node} {e : Failure}
    (h : filterTree s tree = .error e) : sanitize s tree = .error e := by
  rw [filterTree] at h
  rw [sanitize]
  cases hadmitted : admission tree.children with
  | error _ =>
      rw [hadmitted] at h
      cases h
      rfl
  | ok r =>
      rw [hadmitted] at h
      cases h

theorem sanitize_of_filterTree_eq_ok {tree filtered : Node} {decided : List Removal}
    (h : filterTree s tree = .ok (filtered, decided)) :
    sanitize s tree = (reservedIds filtered.walk).map fun reserved ↦
      ((distinctIds reserved [] filtered).1, decided ++ (distinctIds reserved [] filtered).2.2) := by
  obtain ⟨⟨nodes, markup⟩, hadmitted, h⟩ := bind_eq_ok.mp h
  cases h
  rw [sanitize, hadmitted]
  change (dedupeIds _ >>= _) = _
  rw [dedupeIds]
  cases reservedIds (walk _) with
  | error e => rfl
  | ok reserved => rfl

theorem respelled_filterTree (hplaces : CaseFree places) {tree tree' : Node}
    (h : Respelled places tree tree') :
    Agree (Respelled places) (filterTree s tree) (filterTree s tree') := by
  cases h with
  | mk hattrs hchildren =>
      rw [filterTree, filterTree]
      refine (respelled_admission hchildren).bind fun nodes nodes' markup hnodes ↦ ?_
      obtain ⟨hkept, hremovals⟩ := respelled_filterChildren (s := s) hplaces hnodes
      dsimp only
      rw [hremovals]
      exact .ok (.mk hattrs hkept) _

/-- A link and a component with a URL of one's own. -/
def linked (url : String) : Node :=
  .root [.element "a" [("href", .str url), ("title", .str url)] [.ofText "x"],
    .component "Card" [("id", .str "c"), ("link", .str url)] [] []]

end SafeMarkdown.Sanitizer
