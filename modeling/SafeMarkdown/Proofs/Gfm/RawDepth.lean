import SafeMarkdown.Proofs.Gfm.Idempotent
import SafeMarkdown.Proofs.Sanitizer.Enclosing

/-!
# Counted markup and parsed markup

Linking goes by a count of the tags of exempt elements in raw markup; admission goes by the stack of
tags that are open. The count is never below the number of exempt elements that are open, as long as
every piece of markup is read on its own, with no more exempt elements than are counted, and no end
tag counts off an element of another name. Then no link comes to stand in an exempt element.
-/

namespace SafeMarkdown.Gfm

open Html (OpenTags Token HasTags namesAfter namesAfter_of_mem namesAfter_of_not_mem)
open Sanitizer

variable {name : String} {names : List String} {depth : Nat} {o : OpenTags} {t : Token}
  {ts : List Token}

/-- Whether a tag belongs to an element in which nothing is linked. -/
def isExempt (name : String) : Bool :=
  exemptTags.contains name

/-- How many of some elements are exempt. -/
def exemptDepth (names : List String) : Nat :=
  names.countP isExempt

/-- The count after a tag: an end tag counts one exempt element off, whatever its name. -/
def countTag (depth : Nat) : Token → Nat
  | .startTag name _ selfClosing => if isExempt name && !selfClosing then depth + 1 else depth
  | .endTag name => if isExempt name then depth - 1 else depth
  | _ => depth

/-- An end tag of an exempt element ends one of its own name, if any exempt element is open. -/
def EndsItsOwn (names : List String) : Token → Prop
  | .endTag name => isExempt name = true → name ∈ names ∨ exemptDepth names = 0
  | _ => True

/-- All end tags among tokens do so, given the tags that are open before them. -/
def AllEndTheirOwn (o : OpenTags) : List Token → Prop
  | [] => True
  | t :: rest => EndsItsOwn o.names t ∧ AllEndTheirOwn (o.push t) rest

/-- A count that covers the exempt elements that are open. -/
structure Covers (depth : Nat) (o : OpenTags) : Prop where
  le : exemptDepth o.names ≤ depth
  voids : ∀ name ∈ o.voids, Html.isVoid name = true

instance (names : List String) : (t : Token) → Decidable (EndsItsOwn names t)
  | .endTag name => inferInstanceAs
      (Decidable (isExempt name = true → name ∈ names ∨ exemptDepth names = 0))
  | .startTag _ _ _ => inferInstanceAs (Decidable True)
  | .text _ => inferInstanceAs (Decidable True)
  | .markup => inferInstanceAs (Decidable True)

instance decidableAllEndTheirOwn (o : OpenTags) :
    (ts : List Token) → Decidable (AllEndTheirOwn o ts)
  | [] => inferInstanceAs (Decidable True)
  | t :: rest =>
    have := decidableAllEndTheirOwn (o.push t) rest
    inferInstanceAs (Decidable (EndsItsOwn o.names t ∧ AllEndTheirOwn (o.push t) rest))

section Count

theorem exemptDepth_eq_zero_iff : exemptDepth names = 0 ↔ ∀ tag ∈ names, tag ∉ exemptTags := by
  simp [exemptDepth, isExempt, List.countP_eq_zero]

theorem not_isExempt_of_isVoid (h : Html.isVoid name = true) : isExempt name = false := by
  cases hexempt : isExempt name with
  | false => rfl
  | true =>
      have hnone : ∀ tag ∈ exemptTags, Html.isVoid tag = false := by decide
      rw [hnone name (List.contains_iff_mem.mp hexempt)] at h
      cases h

theorem exemptDepth_namesAfter_le (name : String) (names : List String) :
    exemptDepth (namesAfter name names) ≤ exemptDepth names := by
  by_cases hmem : name ∈ names
  · obtain ⟨inner, hsplit⟩ := namesAfter_of_mem hmem
    have hsuffix : namesAfter name names <:+ names :=
      ⟨inner ++ [name], by rw [List.append_assoc]; exact hsplit.symm⟩
    exact hsuffix.sublist.countP_le
  · rw [namesAfter_of_not_mem hmem]

theorem exemptDepth_namesAfter_lt (hexempt : isExempt name = true) (h : name ∈ names) :
    exemptDepth (namesAfter name names) < exemptDepth names := by
  obtain ⟨inner, hsplit⟩ := namesAfter_of_mem h
  have hcount : exemptDepth names =
      exemptDepth inner + (exemptDepth (namesAfter name names) + 1) := by
    conv_lhs => rw [hsplit]
    rw [exemptDepth, List.countP_append, List.countP_cons_of_pos hexempt]
    rfl
  omega

theorem Covers.mono {more : Nat} (h : Covers depth o) (hle : depth ≤ more) : Covers more o :=
  ⟨h.le.trans hle, h.voids⟩

theorem Covers.push_startTag (h : Covers depth o) (name : String) (attrs : List (String × String))
    (selfClosing : Bool) :
    Covers (countTag depth (.startTag name attrs selfClosing))
      (o.push (.startTag name attrs selfClosing)) := by
  cases selfClosing with
  | true =>
      rw [countTag, Bool.not_true, Bool.and_false]
      exact h
  | false =>
      rw [countTag, Bool.not_false, Bool.and_true, OpenTags.push, if_neg Bool.false_ne_true]
      cases hvoid : Html.isVoid name with
      | true =>
          rw [not_isExempt_of_isVoid hvoid]
          exact ⟨h.le, List.forall_mem_cons.mpr ⟨hvoid, h.voids⟩⟩
      | false =>
          refine ⟨?_, h.voids⟩
          have hle := h.le
          change exemptDepth (name :: o.names) ≤ _
          rw [exemptDepth] at hle ⊢
          rw [List.countP_cons]
          split <;> omega

theorem Covers.push_endTag (h : Covers depth o) (ht : EndsItsOwn o.names (.endTag name)) :
    Covers (countTag depth (.endTag name)) (o.push (.endTag name)) := by
  rw [OpenTags.push]
  split
  · rename_i hvoids
    have hvoid : Html.isVoid name = true := h.voids name (List.contains_iff_mem.mp hvoids)
    rw [countTag, not_isExempt_of_isVoid hvoid]
    exact ⟨h.le, fun other hother ↦ h.voids other (List.mem_of_mem_erase hother)⟩
  · refine ⟨?_, h.voids⟩
    have hle := h.le
    have hafter := exemptDepth_namesAfter_le name o.names
    change exemptDepth (namesAfter name o.names) ≤ _
    rw [countTag]
    split
    · rename_i hexempt
      rcases ht hexempt with hmem | hzero
      · have hlt := exemptDepth_namesAfter_lt hexempt hmem
        omega
      · omega
    · omega

theorem Covers.push (h : Covers depth o) (ht : EndsItsOwn o.names t) :
    Covers (countTag depth t) (o.push t) := by
  cases t with
  | text s => exact h
  | markup => exact h
  | startTag name attrs selfClosing => exact h.push_startTag name attrs selfClosing
  | endTag name => exact h.push_endTag ht

theorem Covers.foldl (h : Covers depth o) (hts : AllEndTheirOwn o ts) :
    Covers (ts.foldl countTag depth) (ts.foldl OpenTags.push o) := by
  induction ts generalizing depth o with
  | nil => exact h
  | cons t ts ih => exact ih (h.push hts.1) hts.2

theorem allEndTheirOwn_append {us : List Token} :
    AllEndTheirOwn o (ts ++ us) ↔
      AllEndTheirOwn o ts ∧ AllEndTheirOwn (ts.foldl OpenTags.push o) us := by
  induction ts generalizing o with
  | nil => simp [AllEndTheirOwn]
  | cons t ts ih =>
      rw [List.cons_append, AllEndTheirOwn, AllEndTheirOwn, ih, List.foldl_cons, and_assoc]

/-- Only tags matter to the ends of elements. -/
theorem allEndTheirOwn_tagsOf : AllEndTheirOwn o (Html.tagsOf ts) ↔ AllEndTheirOwn o ts := by
  induction ts generalizing o with
  | nil => exact Iff.rfl
  | cons t ts ih =>
      cases t with
      | text s => exact ih.trans (iff_of_eq (true_and _).symm)
      | markup => exact ih.trans (iff_of_eq (true_and _).symm)
      | startTag name attrs selfClosing => exact and_congr_right fun _ ↦ ih
      | endTag name => exact and_congr_right fun _ ↦ ih

end Count

section Siblings

variable {siblings linked : List Node}

/-- Markup that is read on its own, starts no slot, and opens no more exempt elements than are
counted. -/
def IsCounted (s : List Char) : Prop :=
  ∃ tags, HasTags s tags ∧ (∀ t ∈ tags, startsSlot t = false) ∧
    ∀ depth, tags.foldl countTag depth ≤ openAfter false depth s

/-- Siblings whose links stand where the count is zero. -/
inductive LinksAtZero : Nat → List Node → Prop where
  | nil (depth : Nat) : LinksAtZero depth []
  | markup {depth : Nat} {n : Node} {rest : List Node} (hraw : n.isRaw = true)
      (h : LinksAtZero (openAfter false depth n.text.toList) rest) : LinksAtZero depth (n :: rest)
  | text {depth : Nat} {n : Node} {rest : List Node} (htext : n.isText = true)
      (h : LinksAtZero depth rest) : LinksAtZero depth (n :: rest)
  | link (url : List Char) {rest : List Node} (h : LinksAtZero 0 rest) :
      LinksAtZero 0 (linkNode url :: rest)

theorem linksAtZero_linked (hlinked : ∀ n ∈ linked, IsLinked n) (h : LinksAtZero 0 siblings) :
    LinksAtZero 0 (linked ++ siblings) := by
  induction linked with
  | nil => exact h
  | cons n rest ih =>
      rw [List.forall_mem_cons] at hlinked
      have hrest := ih hlinked.2
      cases hlinked.1 with
      | text hne hquiet => exact .text rfl hrest
      | link url => exact .link url hrest

theorem linksAtZero_linksAmong (h : ∀ n ∈ siblings, n.isRaw = true ∨ n.isText = true)
    (depth : Nat) : LinksAtZero depth (linksAmong depth siblings) := by
  induction siblings generalizing depth with
  | nil =>
      rw [linksAmong]
      exact .nil depth
  | cons n rest ih =>
      rw [List.forall_mem_cons] at h
      rcases h.1 with hraw | htext
      · rw [linksAmong_raw hraw]
        exact .markup hraw (ih h.2 _)
      · by_cases hdepth : depth = 0
        · subst hdepth
          rw [linksAmong_text htext]
          exact linksAtZero_linked (fun m hm ↦ isLinked_of_mem_autolink hm) (ih h.2 0)
        · rw [linksAmong_enclosed (isRaw_of_isText htext) hdepth]
          exact .text htext (ih h.2 depth)

theorem mem_of_mem_linksAmong (h : ∀ n ∈ siblings, n.isRaw = true ∨ n.isText = true) {m : Node}
    (hm : m ∈ linksAmong depth siblings) (hraw : m.isRaw = true) : m ∈ siblings := by
  induction siblings generalizing depth with
  | nil => cases hm
  | cons n rest ih =>
      rw [List.forall_mem_cons] at h
      have hrest {depth : Nat} (hm : m ∈ linksAmong depth rest) : m ∈ n :: rest :=
        List.mem_cons_of_mem n (ih h.2 hm)
      rcases h.1 with hmarkup | htext
      · rw [linksAmong_raw hmarkup] at hm
        exact (List.mem_cons.mp hm).elim (fun heq ↦ heq ▸ List.mem_cons_self) hrest
      · by_cases hdepth : depth = 0
        · subst hdepth
          rw [linksAmong_text htext] at hm
          refine (List.mem_append.mp hm).elim (fun hlinked ↦ ?_) hrest
          cases isLinked_of_mem_autolink hlinked <;> cases hraw
        · rw [linksAmong_enclosed (isRaw_of_isText htext) hdepth] at hm
          exact (List.mem_cons.mp hm).elim (fun heq ↦ heq ▸ List.mem_cons_self) hrest

/-- The tags of a slot leave the open tags as they were. -/
theorem push_slot (hvoids : ∀ name ∈ o.voids, Html.isVoid name = true) (index : String) :
    (o.push (.startTag slotTag [(slotAttribute, index)] false)).push (.endTag slotTag) = o := by
  have hvoid : Html.isVoid slotTag = false := by decide
  have hnone : slotTag ∉ o.voids := by
    intro hmem
    rw [hvoids slotTag hmem] at hvoid
    cases hvoid
  have hnames : namesAfter slotTag (slotTag :: o.names) = o.names := by
    simp [namesAfter, List.findIdx?_cons]
  simp [OpenTags.push, hvoid, hnone, hnames]

/-- Where the count covers the open tags, the slots of siblings with counted markup stand in no
exempt element. -/
theorem exists_tags_of_linksAtZero (h : LinksAtZero depth siblings)
    (hmarkup : ∀ n ∈ siblings, n.isRaw = true → IsCounted n.text.toList) (index : Nat) :
    ∃ tags, HasTags (siblingsText index siblings) tags ∧
      ∀ o, Covers depth o → AllEndTheirOwn o tags →
        ∀ s ∈ spotsRead o tags, exemptDepth s.around = 0 := by
  induction h generalizing index with
  | nil depth => exact ⟨[], Html.hasTags_nil, fun o _ _ ↦ List.forall_mem_nil _⟩
  | @markup depth n rest hraw h ih =>
      rw [List.forall_mem_cons] at hmarkup
      obtain ⟨tags, htags, hrest⟩ := ih hmarkup.2 (index + 1)
      obtain ⟨first, hfirst, hnone, hle⟩ := hmarkup.1 hraw
      have htext : siblingText index n = n.text.toList := by rw [siblingText, if_pos hraw]
      refine ⟨first ++ tags, ?_, ?_⟩
      · rw [siblingsText, htext]
        exact hfirst.append htags
      · intro o ho hends
        obtain ⟨hown, hmore⟩ := allEndTheirOwn_append.mp hends
        have hcovers := (ho.foldl hown).mono (hle depth)
        rw [spotsRead_append, spotsRead_of_startsSlot hnone, List.nil_append]
        exact hrest _ hcovers hmore
  | @text depth n rest htext h ih =>
      rw [List.forall_mem_cons] at hmarkup
      obtain ⟨tags, htags, hrest⟩ := ih hmarkup.2 (index + 1)
      have hescaped : siblingText index n = (Html.escapeText n.text).toList := by
        rw [siblingText, isRaw_of_isText htext, if_neg Bool.false_ne_true, if_pos htext]
      refine ⟨tags, ?_, hrest⟩
      rw [siblingsText, hescaped]
      exact (Html.hasTags_escapeText n.text).append htags
  | @link url rest h ih =>
      rw [List.forall_mem_cons] at hmarkup
      obtain ⟨tags, htags, hrest⟩ := ih hmarkup.2 (index + 1)
      refine ⟨_, (hasTags_slot index rfl rfl).append htags, ?_⟩
      rintro o ho ⟨-, -, hmore⟩ s hs
      rw [push_slot ho.voids] at hmore
      rw [List.cons_append, List.cons_append, List.nil_append, spotsRead, spotsRead,
        push_slot ho.voids] at hs
      rcases List.mem_append.mp hs with hs | hs
      · rw [spotAt_slot] at hs
        split at hs
        · cases hs
        · rw [List.mem_singleton.mp hs]
          exact Nat.le_zero.mp ho.le
      · exact hrest o ho hmore s hs

/-- All markup among siblings ends exempt elements by their own end tags. -/
def MarkupEndsItsOwn (siblings : List Node) : Prop :=
  ∀ ts ∈ (Html.tokens (siblingsText 0 siblings)).toOption, AllEndTheirOwn {} ts

theorem exemptDepth_spotsAmong {spots : List Spot} (h : LinksAtZero 0 siblings)
    (hmarkup : ∀ n ∈ siblings, n.isRaw = true → IsCounted n.text.toList)
    (hends : MarkupEndsItsOwn siblings) (hspots : spotsAmong siblings = .ok spots) :
    ∀ s ∈ spots, exemptDepth s.around = 0 := by
  rw [spotsAmong] at hspots
  split at hspots
  · obtain ⟨ts, hts, rfl⟩ := map_eq_ok.mp hspots
    obtain ⟨tags, htags, houtside⟩ := exists_tags_of_linksAtZero h hmarkup 0
    obtain ⟨us, hus, hread⟩ := htags [] [] (.stop rfl)
    have hread : Html.tagsOf us = tags := hread.trans (List.append_nil tags)
    rw [List.append_nil] at hus
    have hsame : us = ts := Except.ok.inj (hus.tokens_eq.symm.trans hts)
    subst hsame
    have hstart : Covers 0 {} := ⟨Nat.le_refl 0, List.forall_mem_nil _⟩
    have hown : AllEndTheirOwn {} tags := by
      rw [← hread, allEndTheirOwn_tagsOf]
      exact hends us (by rw [hts]; rfl)
    intro s hs
    have hmem : s ∈ spotsRead {} us := mem_of_mem_firstSpots hs
    rw [← spotsRead_tagsOf, hread] at hmem
    exact houtside {} hstart hown s hmem
  · cases hspots
    intro s hs
    obtain ⟨index, -, rfl⟩ := List.mem_map.mp hs
    rfl

/-- No place of a layout stands in an exempt element. -/
def StandOutside (layouts : List Layout) : Prop :=
  ∀ s ∈ Layout.spots.spotsAll [] layouts, ∀ tag ∈ s.around, tag ∉ exemptTags

/-- Texts and markup have no slots, whatever becomes of what is below them. -/
theorem slotsOf_passed {n m : Node} (hbare : bare m = bare n)
    (hpassed : (n.isRaw || n.isText) = true) (index : Nat) (ms : List Node) :
    slotsOf index (m :: ms) = slotsOf (index + 1) ms := by
  have hkind : ((bare m).isRaw || (bare m).isText) = true := by
    rw [hbare]
    exact hpassed
  rw [slotsOf]
  exact if_pos hkind

theorem eq_linkNode_of_mem_slotsOf (h : LinksAtZero depth siblings) (index : Nat) :
    ∀ slot ∈ slotsOf index siblings, ∃ url, slot.2 = linkNode url := by
  induction h generalizing index with
  | nil depth => exact List.forall_mem_nil _
  | markup hraw h ih =>
      rw [slotsOf_passed rfl (by rw [hraw, Bool.true_or])]
      exact ih (index + 1)
  | text htext h ih =>
      rw [slotsOf_passed rfl (by rw [htext, Bool.or_true])]
      exact ih (index + 1)
  | link url h ih => exact List.forall_mem_cons.mpr ⟨⟨url, rfl⟩, ih (index + 1)⟩

/-- Links hold no markup, so resolving the markup below siblings leaves them as they are. -/
theorem slotsOf_admitEach {admitted : List Node} {removals : List Removal}
    (h : LinksAtZero depth siblings) (heach : admitEach siblings = .ok (admitted, removals))
    (index : Nat) : slotsOf index admitted = slotsOf index siblings := by
  induction h generalizing admitted removals index with
  | nil depth =>
      cases heach
      rfl
  | @markup depth n rest hraw h ih =>
      obtain ⟨⟨m, first⟩, hfirst, heach⟩ := bind_eq_ok.mp heach
      obtain ⟨⟨ms, others⟩, hothers, heach⟩ := bind_eq_ok.mp heach
      cases heach
      have hpassed : (n.isRaw || n.isText) = true := by rw [hraw, Bool.true_or]
      rw [slotsOf_passed (bare_admitBelow hfirst) hpassed, slotsOf_passed rfl hpassed]
      exact ih hothers (index + 1)
  | @text depth n rest htext h ih =>
      obtain ⟨⟨m, first⟩, hfirst, heach⟩ := bind_eq_ok.mp heach
      obtain ⟨⟨ms, others⟩, hothers, heach⟩ := bind_eq_ok.mp heach
      cases heach
      have hpassed : (n.isRaw || n.isText) = true := by rw [htext, Bool.or_true]
      rw [slotsOf_passed (bare_admitBelow hfirst) hpassed, slotsOf_passed rfl hpassed]
      exact ih hothers (index + 1)
  | @link url rest h ih =>
      obtain ⟨⟨m, first⟩, hfirst, heach⟩ := bind_eq_ok.mp heach
      obtain ⟨⟨ms, others⟩, hothers, heach⟩ := bind_eq_ok.mp heach
      cases heach
      have hlink : admitBelow (linkNode url) = .ok (linkNode url, []) := rfl
      rw [hlink] at hfirst
      cases hfirst
      exact congrArg (_ :: ·) (ih hothers (index + 1))

/-- Markup that is read as some tokens whatever follows it is counted if these are. -/
theorem isCounted_of_advance {s : List Char} (ts : List Token)
    (h : ∀ rest, Html.advance false (s ++ rest) = .go ts false rest)
    (hslots : ∀ t ∈ Html.tagsOf ts, startsSlot t = false)
    (hcount : ∀ depth, (Html.tagsOf ts).foldl countTag depth ≤ openAfter false depth s) :
    IsCounted s :=
  ⟨Html.tagsOf ts, Html.hasTags_of_advance ts h, hslots, hcount⟩

/-- A URL in a link, one between elements and one in code. -/
def urls : List Node :=
  [.ofMarkup "<a href=\"/x\">", .ofText "http://a.b", .ofMarkup "</a>", .ofText "http://c.d",
    .ofMarkup "<code>", .ofText "http://e.f", .ofMarkup "</code>"]

/-- Code that is still open when an end tag of a link is counted. -/
def miscounted : List Node :=
  [.ofMarkup "<code>", .ofMarkup "</a>", .ofText "http://a.b"]

end Siblings

end SafeMarkdown.Gfm
