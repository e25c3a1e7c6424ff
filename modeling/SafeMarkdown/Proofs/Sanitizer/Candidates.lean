import Mathlib.Data.List.TakeWhile
import SafeMarkdown.Proofs.Sanitizer.Idempotent

/-!
# Lists of candidate URLs

A source set is a list of URLs, but the schemes of a schema are looked for at the start of the whole
value. A scheme of the first URL is found there, as long as no white space beyond U+0020 stands
before it. The other URLs are not looked at: whether all of them are permitted is up to the author
of the tree.
-/

namespace SafeMarkdown

section Schemes

variable {after : Bool} {xs ys zs scheme text : List Char}

/-- What a lowercase text starts with stays when something follows the text: only a final sigma
would change. -/
theorem Text.prefix_lowerAfter_append (hzs : ∀ c ∈ zs, c.toNat < 0x3c2)
    (h : zs <+: lowerAfter after xs) (ys : List Char) : zs <+: lowerAfter after (xs ++ ys) := by
  induction xs generalizing after zs with
  | nil =>
      have hnil : zs = [] := by simpa [lowerAfter] using h
      rw [hnil]
      exact List.nil_prefix
  | cons c xs ih =>
      rw [List.cons_append, lowerAfter]
      rw [lowerAfter] at h
      by_cases hsigma : (c.toNat == 0x3a3) = true
      · rw [if_pos hsigma] at h ⊢
        cases zs with
        | nil => exact List.nil_prefix
        | cons d zs =>
            have hd : d = Char.ofNat (if after && !startsCased xs then 0x3c2 else 0x3c3) :=
              (List.cons_prefix_cons.mp h).1
            have hsmall := hzs d List.mem_cons_self
            rw [hd] at hsmall
            split at hsmall <;> exact absurd hsmall (by decide)
      · rw [if_neg hsigma] at h ⊢
        rcases List.prefix_or_prefix_of_prefix h (List.prefix_append _ _) with hshort | ⟨more, rfl⟩
        · exact hshort.trans (List.prefix_append _ _)
        · rw [List.prefix_append_right_inj] at h ⊢
          exact ih (fun d hd ↦ hzs d (List.mem_append_right _ hd)) h

namespace Schema

/-- Whether a text is spelled like a scheme in lower case. -/
def IsScheme : List Char → Prop
  | [] => False
  | c :: rest => ('a' ≤ c && c ≤ 'z') = true ∧ ∀ d ∈ rest, isSchemeChar d = true

/-- The scheme of a text is what stands before its first colon, if it is spelled like one. -/
theorem schemeOf_eq_some_iff :
    schemeOf text = some scheme ↔ IsScheme scheme ∧ (scheme ++ [':']) <+: text := by
  constructor
  · intro h
    cases text with
    | nil => cases h
    | cons c rest =>
        rw [schemeOf] at h
        split at h
        · rename_i hletter
          split at h
          · rename_i more hmore
            cases h
            refine ⟨⟨hletter, fun d hd ↦ List.mem_takeWhile_imp hd⟩, more, ?_⟩
            simp [← hmore]
          · cases h
        · cases h
  · rintro ⟨hscheme, more, rfl⟩
    cases scheme with
    | nil => exact hscheme.elim
    | cons c rest =>
        obtain ⟨hletter, hrest⟩ := hscheme
        have hcolon : isSchemeChar ':' = false := by decide
        simp only [List.cons_append, List.append_assoc, List.nil_append]
        rw [schemeOf, if_pos hletter, List.dropWhile_append_of_pos hrest,
          List.takeWhile_append_of_pos hrest]
        simp [hcolon]

theorem IsScheme.toNat_lt (h : IsScheme scheme) : ∀ c ∈ scheme ++ [':'], c.toNat < 0x3c2 := by
  have hrange {a b c : Char} (hb : b.toNat < 0x3c2) (h : (a ≤ c && c ≤ b) = true) :
      c.toNat < 0x3c2 := by
    rw [Bool.and_eq_true, decide_eq_true_eq, decide_eq_true_eq] at h
    have hle : c.toNat ≤ b.toNat := h.2
    exact hle.trans_lt hb
  have hchar {c : Char} (h : isSchemeChar c = true) : c.toNat < 0x3c2 := by
    simp only [isSchemeChar, Bool.or_eq_true, beq_iff_eq] at h
    rcases h with (((h | h) | rfl) | rfl) | rfl
    · exact hrange (by decide) h
    · exact hrange (by decide) h
    all_goals decide
  cases scheme with
  | nil => exact h.elim
  | cons c rest =>
      obtain ⟨hfirst, hrest⟩ := h
      intro d hd
      simp only [List.cons_append, List.mem_cons, List.mem_append, List.not_mem_nil,
        or_false] at hd
      rcases hd with rfl | hd | rfl
      · exact hrange (by decide) hfirst
      · exact hchar (hrest d hd)
      · decide

/-- A scheme stays when something follows the URL and nothing but spaces stands before it. -/
theorem urlScheme_append {url value name : String} {before rest : List Char}
    (hvalue : value.toList = before ++ url.toList ++ rest)
    (hbefore : ∀ c ∈ before, c.toNat ≤ 0x20) (h : urlScheme url = some name) :
    urlScheme value = some name := by
  rw [urlScheme, Option.map_eq_some_iff] at h ⊢
  obtain ⟨scheme, hscheme, rfl⟩ := h
  refine ⟨scheme, ?_, rfl⟩
  have hskipped : (before.filter fun c ↦ 0x20 < c.toNat) = [] :=
    List.filter_eq_nil_iff.mpr fun c hc ↦ by simpa using hbefore c hc
  rw [hvalue, List.filter_append, List.filter_append, hskipped, List.nil_append]
  rw [schemeOf_eq_some_iff] at hscheme ⊢
  exact ⟨hscheme.1, Text.prefix_lowerAfter_append hscheme.1.toNat_lt hscheme.2 _⟩

end Schema

end Schemes

namespace Sanitizer

/-- The parts of a source set: it is split at each comma with white space behind it. -/
def candidateParts : List Char → List (List Char)
  | [] => [[]]
  | c :: rest =>
    if c == ',' && rest.head?.any Text.isBlank then [] :: candidateParts rest
    else match candidateParts rest with
      | [] => [[c]]
      | part :: parts => (c :: part) :: parts

def firstWord (part : List Char) : List Char :=
  (part.dropWhile Text.isBlank).takeWhile fun c ↦ !Text.isBlank c

/-- The URLs of a source set: the first word of each part. The URL of a blank part is empty. -/
def candidates (value : String) : List String :=
  (candidateParts value.toList).map fun part ↦ String.ofList (firstWord part)

/-- The URLs of a source set that no check of the whole value looks at: the first one is looked at
unless white space beyond U+0020 stands before it. -/
def unseenCandidates (value : String) : List String :=
  match candidateParts value.toList with
  | [] => []
  | part :: parts =>
    (if (part.takeWhile Text.isBlank).all fun c ↦ c.toNat ≤ 0x20 then parts else part :: parts).map
      fun part ↦ String.ofList (firstWord part)

/-- Whether a URL has no scheme or one of some schemes. -/
def Permits (schemes : List String) (url : String) : Prop :=
  ∀ scheme, Schema.urlScheme url = some scheme → scheme ∈ schemes

variable {s : Schema} {schemes : List String} {value : String}

theorem exists_candidateParts_eq (text : List Char) :
    ∃ part parts rest, candidateParts text = part :: parts ∧ text = part ++ rest := by
  induction text with
  | nil => exact ⟨[], [], [], rfl, rfl⟩
  | cons c text ih =>
      obtain ⟨part, parts, rest, hparts, hrest⟩ := ih
      rw [candidateParts, hparts]
      by_cases hcomma : (c == ',' && text.head?.any Text.isBlank) = true
      · rw [if_pos hcomma]
        exact ⟨[], part :: parts, c :: text, rfl, rfl⟩
      · rw [if_neg hcomma]
        exact ⟨c :: part, parts, rest, rfl, congrArg (c :: ·) hrest⟩

/-- The first URL of a permitted value is permitted if nothing hides it. -/
theorem permits_firstWord {part rest : List Char} (hvalue : value.toList = part ++ rest)
    (hspaces : ∀ c ∈ part.takeWhile Text.isBlank, c.toNat ≤ 0x20) (h : Permits schemes value) :
    Permits schemes (String.ofList (firstWord part)) := by
  have hword : part = part.takeWhile Text.isBlank ++ firstWord part ++
      (part.dropWhile Text.isBlank).dropWhile fun c ↦ !Text.isBlank c := by
    rw [firstWord, List.append_assoc, List.takeWhile_append_dropWhile,
      List.takeWhile_append_dropWhile]
  intro scheme hscheme
  apply h scheme
  apply Schema.urlScheme_append _ hspaces hscheme
  · exact (part.dropWhile Text.isBlank).dropWhile (fun c ↦ !Text.isBlank c) ++ rest
  · rw [hvalue, String.toList_ofList, ← List.append_assoc, ← hword]

/-- Of a permitted value, only the URLs that are not looked at may be forbidden. -/
theorem permits_candidates_iff (h : Permits schemes value) :
    (∀ url ∈ candidates value, Permits schemes url) ↔
      ∀ url ∈ unseenCandidates value, Permits schemes url := by
  obtain ⟨part, parts, rest, hparts, hvalue⟩ := exists_candidateParts_eq value.toList
  rw [candidates, unseenCandidates, hparts]
  dsimp only
  by_cases hspaces : ((part.takeWhile Text.isBlank).all fun c ↦ c.toNat ≤ 0x20) = true
  · have hfirst : Permits schemes (String.ofList (firstWord part)) :=
      permits_firstWord hvalue (by simpa using hspaces) h
    rw [if_pos hspaces, List.map_cons, List.forall_mem_cons, and_iff_right hfirst]
  · rw [if_neg hspaces]

/-- A value that a schema allows for an attribute whose schemes it lists. -/
theorem permits_of_allowsUrl {name : String} (hname : Text.lowercase name = name)
    (hschemes : s.protocols.lookup name = some schemes) (h : s.allowsUrl name (.str value) = true) :
    Permits schemes value := by
  intro scheme hscheme
  simpa [Schema.allowsUrl, hname, hschemes, hscheme] using h

/-- Of a source set that survives sanitizing below the top of a tree, the schema permits the whole
value, as one URL. So each of its URLs is permitted exactly if those are that this does not look
at. -/
theorem sanitize_candidates {tree out : Node} {removals : List Removal}
    (hschemes : s.protocols.lookup "srcset" = some schemes)
    (h : sanitize s tree = .ok (out, removals)) :
    ∀ n ∈ out.shownBelow, n.kind = .element → ∀ value, n.attrs.get? "srcset" = some (.str value) →
      Permits schemes value ∧
        ((∀ url ∈ candidates value, Permits schemes url) ↔
          ∀ url ∈ unseenCandidates value, Permits schemes url) := by
  intro n hn hkind value hvalue
  obtain ⟨tag, -, -, -, hattrs⟩ := (sanitize_admissible h n hn).element hkind
  obtain ⟨hname, -, -, hurl⟩ := hattrs _ (Fields.mem_of_get? hvalue)
  have hpermits := permits_of_allowsUrl hname hschemes hurl
  exact ⟨hpermits, permits_candidates_iff hpermits⟩

/-- A picture source with a source set. -/
def sourceSet (value : String) : Node :=
  .root [.element "source" [("srcset", .str value)] []]

/-- A source set survives if it is permitted as one URL, whatever its URLs are. -/
theorem sanitize_sourceSet (h : Schema.standard.allowsUrl "srcset" (.str value) = true) :
    sanitize .standard (sourceSet value) = .ok (sourceSet value, []) := by
  have hnames : Text.lowercase "source" = "source" ∧ Text.lowercase "srcset" = "srcset" ∧
      Schema.standard.allowsTag "source" = true ∧
      Schema.standard.allowsAttribute "source" "srcset" = true := by
    decide +kernel
  obtain ⟨hsource, hsrcset, htag, hattribute⟩ := hnames
  have hattrs : SettledAttributes .standard "source" [("srcset", .str value)] :=
    ⟨List.pairwise_singleton _ _, List.forall_mem_singleton.mpr hsrcset,
      List.forall_mem_singleton.mpr (by simp [staysAttribute, hattribute, h])⟩
  have hsettled : ∀ n ∈ (sourceSet value).children, Settled .standard n :=
    List.forall_mem_singleton.mpr
      (.element hsource htag hattrs True.intro (List.forall_mem_nil _))
  have hrawless : ∀ n ∈ (sourceSet value).children, Rawless n :=
    List.forall_mem_singleton.mpr
      (Node.all_iff.mpr ⟨by simp [Node.element], List.forall_mem_nil _⟩)
  have hjoined : Node.Joined (sourceSet value).children :=
    Node.joined_cons_of_not_isText rfl True.intro
  exact sanitize_of_steps (admission_of_rawless hrawless)
    (filterChildren_of_settled hjoined hsettled) rfl

/-- The second URL is not looked at, but is permitted. -/
theorem sanitize_candidates_permitted : ∃ out removals,
    sanitize .standard (sourceSet "a.png 1x, HTTPS://b 2x") = .ok (out, removals) ∧
      candidates "a.png 1x, HTTPS://b 2x" = ["a.png", "HTTPS://b"] ∧
      ∀ url ∈ candidates "a.png 1x, HTTPS://b 2x", Permits ["http", "https"] url := by
  have hwhole : Schema.standard.allowsUrl "srcset" (.str "a.png 1x, HTTPS://b 2x") = true := by
    decide +kernel
  have hschemes : Schema.standard.protocols.lookup "srcset" = some ["http", "https"] := by
    decide +kernel
  have hrun := sanitize_sourceSet hwhole
  obtain ⟨-, hiff⟩ :=
    sanitize_candidates hschemes hrun _ (List.mem_singleton_self _) rfl _ rfl
  refine ⟨_, _, hrun, by decide +kernel, hiff.mpr ?_⟩
  have hunseen : unseenCandidates "a.png 1x, HTTPS://b 2x" = ["HTTPS://b"] := by decide +kernel
  have hscheme : Schema.urlScheme "HTTPS://b" = some "https" := by decide +kernel
  rw [hunseen, List.forall_mem_singleton, Permits, hscheme]
  simp

/-- A script that is not looked at survives. -/
theorem sanitize_candidates_script : ∃ out removals, sanitize .standard
    (sourceSet "a.png 1x, javascript:alert(1) 2x") = .ok (out, removals) ∧
    Schema.standard.protocols.lookup "srcset" = some ["http", "https"] ∧
    ∃ n ∈ out.shownBelow, n.kind = .element ∧ ∃ value, n.attrs.get? "srcset" = some (.str value) ∧
      ∃ url ∈ candidates value, ¬ Permits ["http", "https"] url := by
  have hwhole : Schema.standard.allowsUrl "srcset" (.str "a.png 1x, javascript:alert(1) 2x") =
      true := by
    decide +kernel
  have hscheme : Schema.urlScheme "javascript:alert(1)" = some "javascript" := by decide +kernel
  refine ⟨_, _, sanitize_sourceSet hwhole, by decide +kernel, _, List.mem_singleton_self _, rfl, _,
    rfl, "javascript:alert(1)", by decide +kernel, ?_⟩
  rw [Permits, hscheme]
  simp

end Sanitizer

end SafeMarkdown
