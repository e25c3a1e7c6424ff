import SafeMarkdown.Proofs.Sanitizer.Order

/-!
# What encloses an admitted sibling

Reading a fragment keeps a stack of open tags. The elements around the place of a structured sibling
are those that are open where reading comes to the first slot of its index that no other slot
encloses.
-/

namespace SafeMarkdown

namespace Html

/-- The names of the elements that are open while a fragment is read, innermost first, and the void
elements whose end tag may still come. -/
@[ext]
structure OpenTags where
  names : List String := []
  voids : List String := []

/-- The names that stay when the innermost element of a name is closed with all that is open inside
it. -/
def namesAfter (name : String) (names : List String) : List String :=
  match names.findIdx? (· == name) with
  | none => names
  | some i => names.drop (i + 1)

section NamesAfter

variable {name : String} {names : List String}

theorem namesAfter_of_mem (h : name ∈ names) :
    ∃ inner, names = inner ++ name :: namesAfter name names := by
  rw [namesAfter]
  cases hfind : names.findIdx? (· == name) with
  | none =>
      rw [List.findIdx?_eq_none_iff] at hfind
      have hself := hfind name h
      simp at hself
  | some i =>
      obtain ⟨hi, hname, -⟩ := List.findIdx?_eq_some_iff_getElem.mp hfind
      refine ⟨names.take i, ?_⟩
      rw [← beq_iff_eq.mp hname, ← List.drop_eq_getElem_cons hi, List.take_append_drop]

theorem namesAfter_of_not_mem (h : name ∉ names) : namesAfter name names = names := by
  have hnone : names.findIdx? (· == name) = none := by
    rw [List.findIdx?_eq_none_iff]
    intro other hother
    exact beq_eq_false_iff_ne.mpr fun heq ↦ h (heq ▸ hother)
  rw [namesAfter, hnone]

end NamesAfter

namespace OpenTags

def push (o : OpenTags) : Token → OpenTags
  | .text _ => o
  | .markup => o
  | .startTag name _ selfClosing =>
    if selfClosing then o
    else if isVoid name then { o with voids := name :: o.voids }
    else { o with names := name :: o.names }
  | .endTag name =>
    if o.voids.contains name then { o with voids := o.voids.erase name }
    else { o with names := namesAfter name o.names }

end OpenTags

namespace Builder

def openTags (b : Builder) : OpenTags :=
  ⟨b.opened.map OpenElement.name, b.voids⟩

theorem openTags_add (b : Builder) (item : Item) : (b.add item).openTags = b.openTags := by
  rw [add]
  split
  · rfl
  · rename_i e rest hopened
    simp [openTags, hopened]

theorem openTags_flush (b : Builder) : b.flush.openTags = b.openTags := by
  rw [flush]
  split
  · rfl
  · exact openTags_add _ _

theorem openTags_closeMany (n : Nat) (b : Builder) :
    (b.closeMany n).openTags = { b.openTags with names := b.openTags.names.drop n } := by
  induction n generalizing b with
  | zero => rfl
  | succ n ih =>
      rw [closeMany]
      split
      · rename_i hopened
        simp [openTags, hopened]
      · rename_i e rest hopened
        rw [ih, openTags_add]
        simp [openTags, hopened]

theorem openTags_closeName (b : Builder) (name : String) :
    (b.closeName name).openTags =
      { b.openTags with names := namesAfter name b.openTags.names } := by
  have hfind : b.openTags.names.findIdx? (· == name) =
      b.opened.findIdx? fun e ↦ e.name == name :=
    List.findIdx?_map
  rw [closeName, namesAfter, hfind]
  cases b.opened.findIdx? fun e ↦ e.name == name with
  | none => rfl
  | some i => exact openTags_closeMany (i + 1) b

/-- The open tags change with every token in the same way, whatever has been built so far. -/
theorem openTags_push (b : Builder) (t : Token) : (b.push t).openTags = b.openTags.push t := by
  have hvoids : b.flush.voids = b.voids := congrArg OpenTags.voids (openTags_flush b)
  have hnames : b.flush.openTags.names = b.openTags.names :=
    congrArg OpenTags.names (openTags_flush b)
  cases t with
  | text s => rfl
  | markup => exact (openTags_add _ _).trans (openTags_flush b)
  | startTag name attrs selfClosing =>
      have hadd : (b.flush.add (.element name attrs [])).openTags = b.openTags :=
        (openTags_add _ _).trans (openTags_flush b)
      rw [push, OpenTags.push]
      dsimp only
      split
      · exact hadd
      · split
        · have hsame : (b.flush.add (.element name attrs [])).openTags.names =
              b.openTags.names :=
            congrArg OpenTags.names hadd
          exact OpenTags.ext hsame (congrArg (name :: ·) hvoids)
        · exact OpenTags.ext (congrArg (name :: ·) hnames) hvoids
  | endTag name =>
      have hcontains : b.openTags.voids.contains name = b.voids.contains name := rfl
      rw [push, OpenTags.push, hcontains]
      split
      · rfl
      · rw [openTags_closeName, openTags_flush]

end Builder

end Html

namespace Sanitizer

/-- A slot, or the place that it becomes: its index, and the names of the elements around it,
innermost first. -/
structure Spot where
  index : String
  around : List String
  deriving DecidableEq

mutual

/-- The slots of an item in document order, given what is around the item. What a slot encloses does
not count. -/
def spotsOf (around : List String) : Html.Item → List Spot
  | .text _ => []
  | .markup => []
  | .element name attrs children =>
    if name == slotTag then ((attrs.lookup slotAttribute).map (Spot.mk · around)).toList
    else spotsOfAll (name :: around) children

def spotsOfAll (around : List String) : List Html.Item → List Spot
  | [] => []
  | i :: rest => spotsOf around i ++ spotsOfAll around rest

end

/-- The slot that a token starts while certain elements are open, none of them a slot. -/
def spotAt (around : List String) : Html.Token → List Spot
  | .startTag name attrs _ =>
    if around.contains slotTag then [] else spotsOf around (.element name attrs [])
  | _ => []

/-- The slots that tokens start, given the tags that are open before them. -/
def spotsRead (o : Html.OpenTags) : List Html.Token → List Spot
  | [] => []
  | t :: rest => spotAt o.names t ++ spotsRead (o.push t) rest

/-- The places of a layout in document order, given what is around the layout. -/
def Layout.spots (around : List String) : Layout → List Spot
  | place index => [⟨index, around⟩]
  | leaf _ => []
  | element tag _ children => spotsAll (tag :: around) children
where
  spotsAll (around : List String) : List Layout → List Spot
    | [] => []
    | l :: rest => spots around l ++ spotsAll around rest

/-- The first slots of the indices that wait, and the indices that still wait after them. -/
def firstSpots (waiting : List String) : List Spot → List Spot × List String
  | [] => ([], waiting)
  | s :: rest =>
    if waiting.contains s.index then
      let (others, waiting) := firstSpots (waiting.filter (· != s.index)) rest
      (s :: others, waiting)
    else firstSpots waiting rest

/-- The first slots of structured siblings that reading the siblings finds. -/
def spotsAmong (siblings : List Node) : Except Failure (List Spot) :=
  if siblings.any Node.isRaw then
    (Html.tokens (siblingsText 0 siblings)).map fun ts ↦
      (firstSpots (structuredFrom 0 siblings) (spotsRead {} ts)).1
  else .ok ((structuredFrom 0 siblings).map (Spot.mk · []))

section Built

theorem spotsOfAll_append (around : List String) (first second : List Html.Item) :
    spotsOfAll around (first ++ second) = spotsOfAll around first ++ spotsOfAll around second := by
  induction first with
  | nil => rfl
  | cons i first ih => rw [List.cons_append, spotsOfAll, spotsOfAll, ih, List.append_assoc]

/-- The slots in open elements, innermost first, and of these elements themselves. -/
def spotsOpened : List Html.OpenElement → List Spot
  | [] => []
  | e :: rest =>
    let around := rest.map Html.OpenElement.name
    spotsOpened rest ++
      if around.contains slotTag then []
      else spotsOf around (Html.Builder.OpenElement.close e)

/-- The slots that a fragment has so far. -/
def spotsBuilt (b : Html.Builder) : List Spot :=
  spotsOfAll [] b.outside.reverse ++ spotsOpened b.opened

theorem spotsBuilt_add (b : Html.Builder) (item : Html.Item) :
    spotsBuilt (b.add item) = spotsBuilt b ++
      if b.openTags.names.contains slotTag then [] else spotsOf b.openTags.names item := by
  obtain ⟨opened, outside, pending, voids⟩ := b
  cases opened with
  | nil =>
      simp [Html.Builder.add, Html.Builder.openTags, spotsBuilt, spotsOpened, spotsOfAll_append,
        spotsOfAll]
  | cons e rest =>
      simp only [Html.Builder.add, Html.Builder.openTags, spotsBuilt, spotsOpened, List.map_cons,
        Html.Builder.OpenElement.close, List.reverse_cons, List.append_assoc]
      generalize rest.map Html.OpenElement.name = around
      congr 2
      cases hslot : around.contains slotTag with
      | true =>
          have hmem : (e.name :: around).contains slotTag = true := by
            rw [List.contains_cons, hslot, Bool.or_true]
          rw [hmem]
          rfl
      | false =>
          rw [if_neg Bool.false_ne_true, if_neg Bool.false_ne_true, List.contains_cons, hslot,
            Bool.or_false, spotsOf, spotsOf]
          by_cases hname : e.name = slotTag
          · simp [hname]
          · have hother : (slotTag == e.name) = false := beq_eq_false_iff_ne.mpr (Ne.symm hname)
            rw [hother, if_neg Bool.false_ne_true, if_neg (by simpa using hname),
              if_neg (by simpa using hname), spotsOfAll_append, spotsOfAll, spotsOfAll,
              List.append_nil]

theorem spotsBuilt_flush (b : Html.Builder) : spotsBuilt b.flush = spotsBuilt b := by
  rw [Html.Builder.flush]
  split
  · rfl
  · rw [spotsBuilt_add, spotsOf, ite_self, List.append_nil]
    rfl

theorem spotsBuilt_closeMany (n : Nat) (b : Html.Builder) :
    spotsBuilt (b.closeMany n) = spotsBuilt b := by
  induction n generalizing b with
  | zero => rfl
  | succ n ih =>
      rw [Html.Builder.closeMany]
      split
      · rfl
      · rename_i e rest hopened
        rw [ih, spotsBuilt_add, spotsBuilt, spotsBuilt, hopened, spotsOpened, List.append_assoc]
        rfl

theorem spotsBuilt_closeName (b : Html.Builder) (name : String) :
    spotsBuilt (b.closeName name) = spotsBuilt b := by
  rw [Html.Builder.closeName]
  split
  · rfl
  · exact spotsBuilt_closeMany _ b

/-- A token adds the slot that it starts. -/
theorem spotsBuilt_push (b : Html.Builder) (t : Html.Token) :
    spotsBuilt (b.push t) = spotsBuilt b ++ spotAt b.openTags.names t := by
  have hnames : b.flush.openTags.names = b.openTags.names :=
    congrArg Html.OpenTags.names (Html.Builder.openTags_flush b)
  cases t with
  | text s => exact (List.append_nil _).symm
  | markup =>
      rw [Html.Builder.push, spotsBuilt_add, spotsBuilt_flush, spotsOf, ite_self]
      rfl
  | startTag name attrs selfClosing =>
      have hadd : spotsBuilt (b.flush.add (.element name attrs [])) =
          spotsBuilt b ++ spotAt b.openTags.names (.startTag name attrs selfClosing) := by
        rw [spotsBuilt_add, spotsBuilt_flush, hnames]
        rfl
      rw [Html.Builder.push]
      dsimp only
      split
      · exact hadd
      · split
        · exact hadd
        · rw [← spotsBuilt_flush b, ← hnames, spotsBuilt, spotsOpened, ← List.append_assoc]
          rfl
  | endTag name =>
      rw [Html.Builder.push]
      split
      · exact (List.append_nil _).symm
      · rw [spotsBuilt_closeName, spotsBuilt_flush]
        exact (List.append_nil _).symm

theorem spotsBuilt_foldl (ts : List Html.Token) (b : Html.Builder) :
    spotsBuilt (ts.foldl Html.Builder.push b) = spotsBuilt b ++ spotsRead b.openTags ts := by
  induction ts generalizing b with
  | nil => exact (List.append_nil _).symm
  | cons t ts ih =>
      rw [List.foldl_cons, ih, spotsBuilt_push, Html.Builder.openTags_push, spotsRead,
        List.append_assoc]

/-- The slots of a fragment are those that reading it finds. -/
theorem spotsOfAll_finish (ts : List Html.Token) :
    spotsOfAll [] (ts.foldl Html.Builder.push {}).finish = spotsRead {} ts := by
  have hread : spotsBuilt (ts.foldl Html.Builder.push {}).flush = spotsRead {} ts :=
    (spotsBuilt_flush _).trans (spotsBuilt_foldl ts {})
  rw [Html.Builder.finish]
  generalize (ts.foldl Html.Builder.push {}).flush = b at hread
  rw [← hread, ← spotsBuilt_closeMany b.opened.length b, spotsBuilt,
    opened_closeMany b.opened.length b (Nat.le_refl _)]
  exact (List.append_nil _).symm

end Built

section Placed

theorem firstSpots_append (waiting : List String) (first second : List Spot) :
    firstSpots waiting (first ++ second) =
      ((firstSpots waiting first).1 ++ (firstSpots (firstSpots waiting first).2 second).1,
        (firstSpots (firstSpots waiting first).2 second).2) := by
  induction first generalizing waiting with
  | nil => rfl
  | cons s first ih =>
      rw [List.cons_append, firstSpots, firstSpots]
      split
      · rw [ih]
        rfl
      · exact ih waiting

theorem Layout.spotsAll_append (around : List String) (ls ms : List Layout) :
    Layout.spots.spotsAll around (ls ++ ms) =
      Layout.spots.spotsAll around ls ++ Layout.spots.spotsAll around ms := by
  induction ls with
  | nil => rfl
  | cons l ls ih => simp [Layout.spots.spotsAll, ih]

mutual

/-- A layout has its places where the first slots of the indices that wait are. -/
theorem spots_layoutOf (around waiting : List String) : (i : Html.Item) →
    (Layout.spots.spotsAll around (layoutOf waiting i).1, (layoutOf waiting i).2) =
      firstSpots waiting (spotsOf around i)
  | .text s => by rfl
  | .markup => by rfl
  | .element name attrs children => by
      rw [layoutOf, spotsOf]
      split
      · cases hindex : attrs.lookup slotAttribute with
        | none => rfl
        | some index =>
            rw [Option.map_some, Option.toList_some, firstSpots]
            dsimp only
            split <;> rfl
      · have hinner := spots_layoutOfAll (name :: around) waiting children
        rw [← hinner]
        simp [Layout.spots.spotsAll, Layout.spots]

theorem spots_layoutOfAll (around waiting : List String) : (items : List Html.Item) →
    (Layout.spots.spotsAll around (layoutOfAll waiting items).1, (layoutOfAll waiting items).2) =
      firstSpots waiting (spotsOfAll around items)
  | [] => by rfl
  | i :: rest => by
      have hfirst := spots_layoutOf around waiting i
      have hothers := spots_layoutOfAll around (layoutOf waiting i).2 rest
      rw [layoutOfAll, spotsOfAll, firstSpots_append, ← hfirst, ← hothers,
        Layout.spotsAll_append]

end

theorem spots_standing (index : Nat) (siblings : List Node) :
    Layout.spots.spotsAll [] (standing index siblings) =
      (structuredFrom index siblings).map (Spot.mk · []) := by
  induction siblings generalizing index with
  | nil => rfl
  | cons n rest ih =>
      rw [standing, Layout.spots.spotsAll, structuredFrom_cons, ih]
      split <;> rfl

/-- The places of admitted siblings are the first slots of their indices that reading finds, each
with the elements around it that are open there. -/
theorem spots_layoutsOf {siblings : List Node} {layouts : List Layout}
    (h : layoutsOf siblings = .ok layouts) :
    spotsAmong siblings = .ok (Layout.spots.spotsAll [] layouts) := by
  rw [layoutsOf] at h
  rw [spotsAmong]
  split at h
  · rename_i hraw
    obtain ⟨items, hitems, rfl⟩ := map_eq_ok.mp h
    obtain ⟨ts, hts, rfl⟩ := map_eq_ok.mp hitems
    have hspots := spots_layoutOfAll [] (structuredFrom 0 siblings)
      (ts.foldl Html.Builder.push {}).finish
    rw [spotsOfAll_finish] at hspots
    rw [if_pos hraw, hts, Except.map, ← hspots]
  · rename_i hraw
    cases h
    rw [if_neg hraw, spots_standing]

theorem spotsAmong_bare (siblings : List Node) :
    spotsAmong (siblings.map bare) = spotsAmong siblings := by
  rw [spotsAmong, spotsAmong, any_isRaw_bare, siblingsText_bare, structuredFrom_bare]

end Placed

section Read

variable {o : Html.OpenTags} {waiting : List String} {s : Spot} {ts : List Html.Token}

theorem spotsRead_append (o : Html.OpenTags) (ts us : List Html.Token) :
    spotsRead o (ts ++ us) = spotsRead o ts ++ spotsRead (ts.foldl Html.OpenTags.push o) us := by
  induction ts generalizing o with
  | nil => rfl
  | cons t ts ih => rw [List.cons_append, spotsRead, spotsRead, ih, List.append_assoc]; rfl

/-- Only tags matter to the slots that are found. -/
theorem spotsRead_tagsOf (o : Html.OpenTags) (ts : List Html.Token) :
    spotsRead o (Html.tagsOf ts) = spotsRead o ts := by
  induction ts generalizing o with
  | nil => rfl
  | cons t ts ih =>
      cases t with
      | text text => exact ih o
      | markup => exact ih o
      | startTag name attrs selfClosing => exact congrArg (_ ++ ·) (ih _)
      | endTag name => exact congrArg (_ ++ ·) (ih _)

theorem spotAt_slot (around : List String) (index : String) :
    spotAt around (.startTag slotTag [(slotAttribute, index)] false) =
      if around.contains slotTag then [] else [⟨index, around⟩] :=
  rfl

theorem spotsRead_of_startsSlot (h : ∀ t ∈ ts, startsSlot t = false) : spotsRead o ts = [] := by
  induction ts generalizing o with
  | nil => rfl
  | cons t ts ih =>
      rw [List.forall_mem_cons] at h
      have hnone : spotAt o.names t = [] := by
        cases t with
        | startTag name attrs selfClosing =>
            have hname : (name == slotTag) = false := h.1
            rw [spotAt, spotsOf, hname, if_neg Bool.false_ne_true, spotsOfAll, ite_self]
        | endTag name => rfl
        | text text => rfl
        | markup => rfl
      rw [spotsRead, hnone, ih h.2, List.append_nil]

theorem mem_of_mem_firstSpots {spots : List Spot} (h : s ∈ (firstSpots waiting spots).1) :
    s ∈ spots := by
  induction spots generalizing waiting with
  | nil => exact h
  | cons first rest ih =>
      rw [firstSpots] at h
      split at h
      · rcases List.mem_cons.mp h with rfl | h
        · exact List.mem_cons_self
        · exact List.mem_cons_of_mem first (ih h)
      · exact List.mem_cons_of_mem first (ih h)

end Read

end Sanitizer

end SafeMarkdown
