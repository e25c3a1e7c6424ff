import SafeMarkdown.Proofs.Text.LetterCase
import SafeMarkdown.Proofs.Text.Scanning
import SafeMarkdown.Schema

/-!
# What a schema decides

The plain reading of the lists that a schema is built of: a written name stands for its lowercase form
without the white space around it, and a blank one for none. A tag is allowed exactly when it is
listed. An attribute or a URL is allowed only if it is by this reading, and exactly then when at most
one key of the mapping names the tag or the attribute. Of several such keys the schema keeps the last
one, and a name that is asked for is not trimmed.

A URL is disguised by control characters and spaces, which browsers pass over, and by letters of
ASCII in the other case. What is left without these characters is the same text, letter by letter. So
a disguise changes neither the scheme of a URL nor what is decided by it.
-/

namespace SafeMarkdown

/-- Whether a name starts with the two letters of event handlers, in any case. -/
def StartsWithOn (name : String) : Prop :=
  ∃ o n rest, name.toList = o :: n :: rest ∧ o.toLower = 'o' ∧ n.toLower = 'n'

namespace Schema

section Reading

/-- A written name, with white space around it and in any case, names what is spelled so; a blank one
names nothing. -/
def Names (written name : String) : Prop :=
  Text.trim written.toList ≠ [] ∧ normalName written = name

/-- Some written name of a list names this one. -/
def Lists (names : List String) (name : String) : Prop :=
  ∃ written ∈ names, Names written name

/-- Some name listed under a key that names `key` names this one. -/
def ListsUnder (m : List (String × List String)) (key name : String) : Prop :=
  ∃ e ∈ m, Names e.1 key ∧ Lists e.2 name

/-- At most one entry has a key that names `key`. -/
def NamedOnce (m : List (String × List String)) (key : String) : Prop :=
  ∀ e ∈ m, ∀ f ∈ m, Names e.1 key → Names f.1 key → e = f

/-- A listed name stands for a name: it equals it, or ends in a star and the name extends what
precedes the star. -/
def StandsFor (listed name : String) : Prop :=
  name = listed ∨ ∃ start, listed = start ++ "*" ∧ start.toList <+: name.toList

/-- What the lists say of an attribute. -/
def PermitsAttribute (attributes : List (String × List String)) (globals : List String)
    (tag name : String) : Prop :=
  ¬ StartsWithOn name ∧ ∃ listed, (Lists globals listed ∨ ListsUnder attributes tag listed) ∧
    StandsFor listed (Text.lowercase name)

/-- What the lists say of the value of an attribute. -/
def PermitsValue (protocols : List (String × List String)) (name : String) (v : Value) : Prop :=
  ∀ url scheme, v = .str url → urlScheme url = some scheme → (∃ e ∈ protocols, Names e.1 name) →
    ListsUnder protocols name scheme

instance (written name : String) : Decidable (Names written name) :=
  inferInstanceAs (Decidable (_ ∧ _))

instance (names : List String) (name : String) : Decidable (Lists names name) :=
  inferInstanceAs (Decidable (∃ _ ∈ _, _))

instance (m : List (String × List String)) (key : String) : Decidable (NamedOnce m key) :=
  inferInstanceAs (Decidable (∀ _ ∈ _, ∀ _ ∈ _, _))

instance (m : List (String × List String)) (key name : String) : Decidable (ListsUnder m key name) :=
  inferInstanceAs (Decidable (∃ _ ∈ _, _))

end Reading

section Names

theorem mem_insertName {n name : String} {ns : List String} :
    n ∈ insertName name ns ↔ n = name ∨ n ∈ ns := by
  induction ns with
  | nil => simp [insertName]
  | cons m ns ih =>
      rw [insertName]
      split
      · rw [List.mem_cons, ih, List.mem_cons, or_left_comm]
      · split
        · rename_i hname
          simp [hname]
        · rw [List.mem_cons]

theorem mem_nameSet {n : String} {ns : List String} : n ∈ nameSet ns ↔ n ∈ ns := by
  induction ns with
  | nil => simp [nameSet]
  | cons m ns ih => rw [nameSet, List.foldr_cons, mem_insertName, ← nameSet, ih, List.mem_cons]

theorem mem_normalNames {names : List String} {name : String} :
    name ∈ normalNames names ↔ Lists names name := by
  simp only [normalNames, mem_nameSet, List.mem_map, List.mem_filter, Lists, Names,
    Bool.not_eq_true', List.isEmpty_eq_false_iff, and_assoc, ne_eq]

end Names

section Mappings

variable {m : List (String × List String)} {key : String}

theorem names_iff {written name : String} (hname : name ≠ "") :
    Names written name ↔ normalName written = name := by
  refine ⟨And.right, fun h ↦ ⟨fun hblank ↦ hname ?_, h⟩⟩
  rw [← h, normalName, hblank]
  rfl

theorem lookup_cons_eq (k l : String) (names : List String) (m : List (String × List String)) :
    ((l, names) :: m).lookup k = if k = l then some names else m.lookup k := by
  by_cases h : k = l
  · simp [h]
  · rw [List.lookup_cons, beq_eq_false_iff_ne.mpr h, if_neg h]

theorem lookup_setKey (m : List (String × List String)) (key k : String) (names : List String) :
    (setKey m key names).lookup k = if k = key then some names else m.lookup k := by
  induction m with
  | nil => rw [setKey, lookup_cons_eq]
  | cons e m ih =>
      obtain ⟨l, ns⟩ := e
      rw [setKey]
      split
      · rename_i hl
        rw [beq_iff_eq.mp hl, lookup_cons_eq, lookup_cons_eq]
        split
        · rfl
        · rfl
      · rename_i hl
        rw [lookup_cons_eq, ih, lookup_cons_eq]
        split
        · rename_i hk
          rw [if_neg]
          intro hkey
          exact hl (by rw [← hk, hkey, BEq.rfl])
        · rfl

/-- Of the keys that become equal the last one counts. -/
theorem lookup_normalMapping (m : List (String × List String)) (key : String) :
    (normalMapping m).lookup key =
      (m.reverse.find? fun e ↦ normalName e.1 == key).map fun e ↦ normalNames e.2 := by
  have hfold : ∀ acc : List (String × List String),
      (m.foldl (fun acc e ↦ setKey acc (normalName e.1) (normalNames e.2)) acc).lookup key =
        ((m.reverse.find? fun e ↦ normalName e.1 == key).map fun e ↦ normalNames e.2).or
          (acc.lookup key) := by
    induction m with
    | nil => intro acc; rfl
    | cons e m ih =>
        intro acc
        rw [List.foldl_cons, ih, lookup_setKey, List.reverse_cons, List.find?_append]
        cases m.reverse.find? fun e ↦ normalName e.1 == key with
        | some f => simp
        | none =>
            by_cases he : normalName e.1 = key
            · simp [he]
            · simp [he, Ne.symm he]
  rw [normalMapping, hfold, List.lookup_nil, Option.or_none]

theorem exists_of_lookup_normalMapping {names : List String} (hkey : key ≠ "")
    (h : (normalMapping m).lookup key = some names) :
    ∃ e ∈ m, Names e.1 key ∧ names = normalNames e.2 := by
  rw [lookup_normalMapping, Option.map_eq_some_iff] at h
  obtain ⟨e, he, hnames⟩ := h
  have hkeyed := List.find?_some he
  rw [beq_iff_eq] at hkeyed
  exact ⟨e, List.mem_reverse.mp (List.mem_of_find?_eq_some he), (names_iff hkey).mpr hkeyed,
    hnames.symm⟩

theorem lookup_normalMapping_eq_none (hkey : key ≠ "") :
    (normalMapping m).lookup key = none ↔ ∀ e ∈ m, ¬ Names e.1 key := by
  simp [lookup_normalMapping, names_iff hkey]

/-- What is listed under the key that a schema keeps is listed. -/
theorem listsUnder_of_mem_lookup {name : String} (hkey : key ≠ "")
    (h : name ∈ ((normalMapping m).lookup key).getD []) : ListsUnder m key name := by
  cases hlookup : (normalMapping m).lookup key with
  | none => simp [hlookup] at h
  | some names =>
      obtain ⟨e, he, hnames, rfl⟩ := exists_of_lookup_normalMapping hkey hlookup
      rw [hlookup] at h
      exact ⟨e, he, hnames, mem_normalNames.mp h⟩

theorem exists_lookup_of_listsUnder {name : String} (hkey : key ≠ "") (honce : NamedOnce m key)
    (h : ListsUnder m key name) : ∃ names, (normalMapping m).lookup key = some names ∧ name ∈ names := by
  obtain ⟨e, he, hnames, hlists⟩ := h
  cases hlookup : (normalMapping m).lookup key with
  | none => exact absurd hnames ((lookup_normalMapping_eq_none hkey).mp hlookup e he)
  | some names =>
      obtain ⟨f, hf, hfnames, rfl⟩ := exists_of_lookup_normalMapping hkey hlookup
      cases honce e he f hf hnames hfnames
      exact ⟨_, rfl, mem_normalNames.mpr hlists⟩

end Mappings

section Tests

variable {name : String}

theorem toNat_lt_of_toLower {c d : Char} (h : c.toLower = d) (hd : d.toNat < 128) :
    c.toNat < 128 := by
  unfold Char.toLower at h
  split at h
  · rename_i hcapital
    have hlast : c.toNat ≤ 90 := hcapital.2
    omega
  · rw [h]
    exact hd

/-- A name is that of an event handler exactly when it starts with "on" in any case. -/
theorem isEventHandler_iff : isEventHandler name = true ↔ StartsWithOn name := by
  have hfirst {t : List Char} : Text.lower name.toList = 'o' :: t ↔ _ :=
    Text.lowerAfter_eq_cons (by decide) (by decide) (by decide)
  have hsecond {after : Bool} {s t : List Char} : Text.lowerAfter after s = 'n' :: t ↔ _ :=
    Text.lowerAfter_eq_cons (by decide) (by decide) (by decide)
  rw [isEventHandler, List.isPrefixOf_iff_prefix]
  constructor
  · rintro ⟨rest, hlower⟩
    obtain ⟨o, s, hname, -, ho, hlower⟩ := hfirst.mp hlower.symm
    obtain ⟨n, more, rfl, -, hn, -⟩ := hsecond.mp hlower
    exact ⟨o, n, more, hname, ho, hn⟩
  · rintro ⟨o, n, rest, hname, ho, hn⟩
    have hoAscii := toNat_lt_of_toLower ho (by decide)
    have hnAscii := toNat_lt_of_toLower hn (by decide)
    have hlower := hfirst.mpr ⟨o, _, hname, hoAscii, ho,
      hsecond.mpr ⟨n, rest, rfl, hnAscii, hn, rfl⟩⟩
    exact ⟨_, hlower.symm⟩

theorem not_startsWithOn (h : isEventHandler name = false) : ¬ StartsWithOn name :=
  fun hon ↦ Bool.eq_false_iff.mp h (isEventHandler_iff.mpr hon)

theorem isEventHandler_lowercase (name : String) :
    isEventHandler (Text.lowercase name) = isEventHandler name := by
  simp [isEventHandler, Text.lowercase, Text.lower_lower]

theorem covers_iff {listed : String} : covers listed name = true ↔ StandsFor listed name := by
  rw [covers, StandsFor]
  by_cases hstar : listed.toList.getLast? = some '*'
  · obtain ⟨init, hinit⟩ := List.getLast?_eq_some_iff.mp hstar
    have hlisted : listed = String.ofList init ++ "*" := by
      apply String.toList_inj.mp
      simp [hinit]
    rw [if_pos (by simpa using hstar), hinit, List.dropLast_concat, List.isPrefixOf_iff_prefix]
    constructor
    · intro h
      exact .inr ⟨String.ofList init, hlisted, by simpa using h⟩
    · rintro (rfl | ⟨start, hstart, h⟩)
      · rw [hinit]
        exact List.prefix_append _ _
      · have hsame : init = start.toList := by
          have := congrArg String.toList hstart
          simpa [hinit] using this
        rwa [hsame]
  · rw [if_neg (by simpa using hstar), beq_iff_eq]
    constructor
    · exact .inl
    · rintro (h | ⟨start, rfl, -⟩)
      · exact h
      · exact absurd (by simp) hstar

end Tests

section Decisions

variable (tags globals : Option (List String)) (attributes protocols : Option (List (String × List String)))

theorem allowsTag_build (tag : String) :
    (build tags attributes globals protocols).allowsTag tag = true ↔
      Lists (tags.getD defaultTags) (Text.lowercase tag) := by
  rw [allowsTag, List.contains_iff_mem]
  exact mem_normalNames

theorem allowsAttribute_build (tag name : String) :
    (build tags attributes globals protocols).allowsAttribute tag name = true ↔
      ¬ StartsWithOn name ∧ ∃ listed,
        (Lists (globals.getD defaultGlobals) listed ∨
          listed ∈ ((normalMapping (attributes.getD defaultAttributes)).lookup
            (Text.lowercase tag)).getD []) ∧
        StandsFor listed (Text.lowercase name) := by
  simp only [allowsAttribute, isEventHandler_lowercase, Bool.and_eq_true, Bool.not_eq_true',
    ← Bool.not_eq_true, isEventHandler_iff, List.any_eq_true, List.mem_append, covers_iff]
  simp only [build, mem_normalNames, or_comm]

/-- What a schema decides, by the lists that it is built of. -/
theorem build_decides :
    (∀ tag, (build tags attributes globals protocols).allowsTag tag = true ↔
      Lists (tags.getD defaultTags) (Text.lowercase tag)) ∧
    (∀ tag name, tag ≠ "" →
      ((build tags attributes globals protocols).allowsAttribute tag name = true →
        PermitsAttribute (attributes.getD defaultAttributes) (globals.getD defaultGlobals)
          (Text.lowercase tag) name) ∧
      (NamedOnce (attributes.getD defaultAttributes) (Text.lowercase tag) →
        PermitsAttribute (attributes.getD defaultAttributes) (globals.getD defaultGlobals)
          (Text.lowercase tag) name →
        (build tags attributes globals protocols).allowsAttribute tag name = true)) ∧
    ∀ name v, name ≠ "" →
      ((build tags attributes globals protocols).allowsUrl name v = true →
        PermitsValue (protocols.getD defaultProtocols) (Text.lowercase name) v) ∧
      (NamedOnce (protocols.getD defaultProtocols) (Text.lowercase name) →
        PermitsValue (protocols.getD defaultProtocols) (Text.lowercase name) v →
        (build tags attributes globals protocols).allowsUrl name v = true) := by
  refine ⟨allowsTag_build tags globals attributes protocols, ?_, ?_⟩
  · intro tag name htag
    have hkey := Text.lowercase_ne_empty htag
    rw [allowsAttribute_build]
    constructor
    · rintro ⟨hon, listed, hlisted, hstands⟩
      exact ⟨hon, listed, hlisted.imp_right (listsUnder_of_mem_lookup hkey), hstands⟩
    · rintro honce ⟨hon, listed, hlisted, hstands⟩
      refine ⟨hon, listed, hlisted.imp_right fun hunder ↦ ?_, hstands⟩
      obtain ⟨names, hlookup, hmem⟩ := exists_lookup_of_listsUnder hkey honce hunder
      rwa [hlookup]
  · intro name v hname
    have hkey := Text.lowercase_ne_empty hname
    have hbuilt : (build tags attributes globals protocols).protocols =
        normalMapping (protocols.getD defaultProtocols) := rfl
    constructor
    · rintro h url scheme rfl hscheme ⟨e, he, hnames⟩
      cases hlookup : (normalMapping (protocols.getD defaultProtocols)).lookup
          (Text.lowercase name) with
      | none => exact absurd hnames ((lookup_normalMapping_eq_none hkey).mp hlookup e he)
      | some schemes =>
          apply listsUnder_of_mem_lookup hkey
          simpa [allowsUrl, hbuilt, hlookup, hscheme] using h
    · intro honce h
      unfold allowsUrl
      rw [hbuilt]
      split
      · rename_i schemes url hlookup
        split
        · rfl
        · rename_i scheme hscheme
          obtain ⟨e, he, hnames, -⟩ := exists_of_lookup_normalMapping hkey hlookup
          obtain ⟨names, hnames, hmem⟩ :=
            exists_lookup_of_listsUnder hkey honce (h url scheme rfl hscheme ⟨e, he, hnames⟩)
          rw [hlookup] at hnames
          cases hnames
          exact List.contains_iff_mem.mpr hmem
      · rfl

/-- Names in capitals and with white space around them, and a key that is listed once. -/
theorem build_decides_untidy :
    let tags := some [" B ", "Em", " "]
    let attributes := some [("A ", ["HREF", "Data-*"]), ("img", ["src"])]
    let protocols := some [(" Href", ["HTTPS "])]
    let s := build tags attributes (some ["Title"]) protocols
    s.allowsTag "EM" = true ∧ s.allowsTag "" = false ∧
      ("a" ≠ "" ∧ NamedOnce [("A ", ["HREF", "Data-*"]), ("img", ["src"])] "a" ∧
        s.allowsAttribute "a" "DATA-id" = true) ∧
      ("href" ≠ "" ∧ NamedOnce [(" Href", ["HTTPS "])] "href" ∧
        s.allowsUrl "href" (.str "https://a") = true ∧
        s.allowsUrl "href" (.str "java\nscript:a") = false) := by
  intro tags attributes protocols s
  obtain ⟨htag, hattribute, hvalue⟩ := build_decides tags (some ["Title"]) attributes protocols
  have hlower : Text.lowercase "a" = "a" ∧ Text.lowercase "href" = "href" ∧
      Text.lowercase "DATA-id" = "data-id" := by
    decide +kernel
  have hona : NamedOnce [("A ", ["HREF", "Data-*"]), ("img", ["src"])] "a" := by decide +kernel
  have honhref : NamedOnce [(" Href", ["HTTPS "])] "href" := by decide +kernel
  have hpermits : PermitsAttribute [("A ", ["HREF", "Data-*"]), ("img", ["src"])] ["Title"]
      (Text.lowercase "a") "DATA-id" := by
    rw [PermitsAttribute, ← isEventHandler_iff, hlower.1, hlower.2.2]
    refine ⟨by decide +kernel, "data-*", .inr (by decide +kernel), .inr ⟨"data-", rfl, ?_⟩⟩
    exact ⟨"id".toList, rfl⟩
  have hlisted : PermitsValue [(" Href", ["HTTPS "])] (Text.lowercase "href") (.str "https://a") := by
    rintro url scheme hurl hscheme -
    cases hurl
    have hhttps : urlScheme "https://a" = some "https" := by decide +kernel
    rw [hhttps] at hscheme
    cases hscheme
    rw [hlower.2.1]
    decide +kernel
  refine ⟨(htag "EM").mpr (by decide +kernel), ?_, ⟨by decide, hona, ?_⟩, by decide, honhref, ?_, ?_⟩
  · rw [Bool.eq_false_iff, ne_eq, htag]
    decide +kernel
  · exact (hattribute "a" "DATA-id" (by decide)).2 (hlower.1 ▸ hona) hpermits
  · exact (hvalue "href" _ (by decide)).2 (hlower.2.1 ▸ honhref) hlisted
  · rw [Bool.eq_false_iff]
    intro hallowed
    have hscheme : urlScheme "java\nscript:a" = some "javascript" := by decide +kernel
    have hunder := (hvalue "href" _ (by decide)).1 hallowed _ _ rfl hscheme
    rw [hlower.2.1] at hunder
    revert hunder
    decide +kernel

/-- The reading does not extend to names that are asked for with white space around them, to several
keys that name one tag, and to blank keys. -/
theorem build_against_reading :
    (Lists ["a"] (normalName " a ") ∧
      (build (some ["a"]) none none none).allowsTag " a " = false) ∧
    (¬ StartsWithOn "href" ∧ ListsUnder [("a", ["href"]), ("A", ["title"])] "a" "href" ∧
      (build none (some [("a", ["href"]), ("A", ["title"])]) (some []) none).allowsAttribute
        "a" "href" = false) ∧
    ((∀ name, ¬ ListsUnder [(" ", ["x"])] "" name) ∧
      (build none (some [(" ", ["x"])]) (some []) none).allowsAttribute "" "x" = true) := by
  refine ⟨by decide +kernel, ⟨?_, by decide +kernel⟩, ?_, by decide +kernel⟩
  · rw [← isEventHandler_iff]
    decide +kernel
  · rintro name ⟨e, he, hnames, -⟩
    rw [List.mem_singleton.mp he] at hnames
    revert hnames
    decide +kernel

end Decisions

section Disguises

/-- A text and one that has control characters and spaces put into it, and letters of ASCII in the
other case. -/
inductive Disguises : List Char → List Char → Prop where
  | nil : Disguises [] []
  | insert {s t : List Char} (c : Char) (hc : c.toNat ≤ 0x20) (h : Disguises s t) :
      Disguises s (c :: t)
  | keep {c d : Char} {s t : List Char} (hcd : Text.SameLetter c d) (h : Disguises s t) :
      Disguises (c :: s) (d :: t)

variable {v v' : String} {name : String}

theorem Disguises.sameLetters {s t : List Char} (h : Disguises s t) :
    List.Forall₂ Text.SameLetter (s.filter fun c ↦ 0x20 < c.toNat)
      (t.filter fun c ↦ 0x20 < c.toNat) := by
  induction h with
  | nil => exact .nil
  | insert c hc _ ih =>
      rw [List.filter_cons_of_neg (a := c) (by simpa using hc)]
      exact ih
  | @keep c d s t hcd _ ih =>
      rw [List.filter_cons, List.filter_cons, hcd.shows_eq]
      split
      · exact .cons hcd ih
      · exact ih

/-- A disguise does not hide the scheme of a URL. -/
theorem urlScheme_of_disguises (h : Disguises v.toList v'.toList) : urlScheme v' = urlScheme v := by
  rw [urlScheme, urlScheme, Text.lower, Text.lower, Text.lowerAfter_eq_of_sameLetter h.sameLetters]

theorem allowsUrl_of_disguises (s : Schema) (name : String) (h : Disguises v.toList v'.toList) :
    s.allowsUrl name (.str v') = s.allowsUrl name (.str v) := by
  unfold allowsUrl
  cases s.protocols.lookup (Text.lowercase name) with
  | none => rfl
  | some schemes =>
      dsimp only
      rw [urlScheme_of_disguises h]

end Disguises

end Schema

end SafeMarkdown
