import Mathlib.Tactic.SplitIfs
import SafeMarkdown.Html.Writer
import SafeMarkdown.Text.Blank

/-!
# A scanner of markup

A scanner that knows nothing of trees: it goes over a text character by character and reports the
start tags with their attributes, the end tags, and the text between them, in which the five
entities that escaping writes are decoded. It refuses a text that ends inside a tag.

Markup that is spelled piece by piece, every text escaped in either way, is read back as the pieces
with neighbouring texts joined.
-/

namespace SafeMarkdown.Html

/-- What a scanner meets. An attribute without a value is a bare name. -/
inductive Event where
  | start (name : List Char) (attrs : List (List Char × Option (List Char)))
  | stop (name : List Char)
  | text (s : List Char)
  deriving DecidableEq

namespace Event

def isTag : Event → Bool
  | text _ => false
  | _ => true

end Event

def decode : List Char → List Char
  | '&' :: 'a' :: 'm' :: 'p' :: ';' :: rest => '&' :: decode rest
  | '&' :: 'l' :: 't' :: ';' :: rest => '<' :: decode rest
  | '&' :: 'g' :: 't' :: ';' :: rest => '>' :: decode rest
  | '&' :: 'q' :: 'u' :: 'o' :: 't' :: ';' :: rest => '"' :: decode rest
  | '&' :: '#' :: 'x' :: '2' :: '7' :: ';' :: rest => '\'' :: decode rest
  | c :: rest => c :: decode rest
  | [] => []

/-- Where a scanner is. What it is in the middle of stands last character first, and the attributes
of an open tag last first. -/
inductive Scanning where
  | text (pending : List Char)
  | opening (name : List Char)
  | closing (name : List Char)
  | naming (tag : List Char) (attrs : List (List Char × Option (List Char))) (name : List Char)
  | quote (tag : List Char) (attrs : List (List Char × Option (List Char))) (name : List Char)
  | value (tag : List Char) (attrs : List (List Char × Option (List Char)))
      (name value : List Char)
  | behind (tag : List Char) (attrs : List (List Char × Option (List Char)))

/-- A text as events: an empty one is none. -/
def textEvents (s : List Char) : List Event :=
  if s.isEmpty then [] else [.text s]

def pendingEvents (pending : List Char) : List Event :=
  textEvents (decode pending.reverse)

/-- One step of a scanner: what it reports, and where it is then. -/
def Scanning.step : Scanning → Char → Option (List Event × Scanning)
  | text pending, c =>
    if c = '<' then some (pendingEvents pending, opening []) else some ([], text (c :: pending))
  | opening name, c =>
    if c = '/' ∧ name = [] then some ([], closing [])
    else if c = ' ' then some ([], naming name.reverse [] [])
    else if c = '>' then some ([.start name.reverse []], text [])
    else some ([], opening (c :: name))
  | closing name, c =>
    if c = '>' then some ([.stop name.reverse], text []) else some ([], closing (c :: name))
  | naming tag attrs name, c =>
    if c = '=' then some ([], quote tag attrs name.reverse)
    else if c = ' ' then some ([], naming tag ((name.reverse, none) :: attrs) [])
    else if c = '>' then some ([.start tag ((name.reverse, none) :: attrs).reverse], text [])
    else some ([], naming tag attrs (c :: name))
  | quote tag attrs name, c => if c = '"' then some ([], value tag attrs name []) else none
  | value tag attrs name v, c =>
    if c = '"' then some ([], behind tag ((name, some (decode v.reverse)) :: attrs))
    else some ([], value tag attrs name (c :: v))
  | behind tag attrs, c =>
    if c = ' ' then some ([], naming tag attrs [])
    else if c = '>' then some ([.start tag attrs.reverse], text [])
    else none

def scanFrom : Scanning → List Char → Option (List Event)
  | .text pending, [] => some (pendingEvents pending)
  | _, [] => none
  | p, c :: rest => do
    let (es, q) ← p.step c
    (scanFrom q rest).map (es ++ ·)

/-- The events of a text. -/
def scan (s : String) : Option (List Event) :=
  scanFrom (.text []) s.toList

section Decoding

theorem decode_cons_of_ne {c : Char} (hc : c ≠ '&') (rest : List Char) :
    decode (c :: rest) = c :: decode rest := by
  rw [decode]
  all_goals
    intros
    simp_all

theorem decode_escapeTextChar (c : Char) (rest : List Char) :
    decode (escapeTextChar c ++ rest) = c :: decode rest := by
  unfold escapeTextChar
  by_cases hamp : c = '&'
  · subst hamp
    rfl
  by_cases hlt : c = '<'
  · subst hlt
    rfl
  by_cases hgt : c = '>'
  · subst hgt
    rfl
  simp only [beq_iff_eq, hamp, hlt, hgt, if_false]
  exact decode_cons_of_ne hamp rest

theorem decode_escapeAttributeChar (c : Char) (rest : List Char) :
    decode (escapeAttributeChar c ++ rest) = c :: decode rest := by
  unfold escapeAttributeChar
  by_cases hquot : c = '"'
  · subst hquot
    rfl
  by_cases hapos : c = '\''
  · subst hapos
    rfl
  simpa [hquot, hapos] using decode_escapeTextChar c rest

/-- A way to write characters that decoding undoes and that opens no tag. -/
structure Encodes (encode : Char → List Char) : Prop where
  decode : ∀ c rest, Html.decode (encode c ++ rest) = c :: Html.decode rest
  ne_nil : ∀ c, encode c ≠ []
  not_bracket : ∀ c, '<' ∉ encode c

theorem encodes_escapeTextChar : Encodes escapeTextChar where
  decode := decode_escapeTextChar
  ne_nil := by
    intro c
    unfold escapeTextChar
    split_ifs <;> simp
  not_bracket := by
    intro c
    unfold escapeTextChar
    split_ifs with hamp hlt hgt
    · decide
    · decide
    · decide
    · rw [List.mem_singleton]
      rintro rfl
      exact hlt rfl

theorem encodes_escapeAttributeChar : Encodes escapeAttributeChar where
  decode := decode_escapeAttributeChar
  ne_nil := by
    intro c
    unfold escapeAttributeChar
    split_ifs
    · simp
    · simp
    · exact encodes_escapeTextChar.ne_nil c
  not_bracket := by
    intro c
    unfold escapeAttributeChar
    split_ifs
    · decide
    · decide
    · exact encodes_escapeTextChar.not_bracket c

theorem decode_flatMap {encode : Char → List Char} (h : Encodes encode) (s rest : List Char) :
    decode (s.flatMap encode ++ rest) = s ++ decode rest := by
  induction s with
  | nil => rfl
  | cons c s ih => simp [h.decode, ih]

theorem quote_not_mem_escapeAttributeChar (c : Char) : '"' ∉ escapeAttributeChar c := by
  unfold escapeAttributeChar escapeTextChar
  split_ifs with hquot hapos hamp hlt hgt
  · decide
  · decide
  · decide
  · decide
  · decide
  · rw [List.mem_singleton]
    rintro rfl
    exact hquot rfl

end Decoding

section Steps

variable {rest : List Char}

theorem scanFrom_cons {p q : Scanning} {c : Char} {es : List Event} (h : p.step c = some (es, q)) :
    scanFrom p (c :: rest) = (scanFrom q rest).map (es ++ ·) := by
  cases p <;> simp [scanFrom, h]

/-- A step on which nothing is reported. -/
theorem scanFrom_silent {p q : Scanning} {c : Char} (h : p.step c = some ([], q)) :
    scanFrom p (c :: rest) = scanFrom q rest := by
  simp [scanFrom_cons h]

/-- Where every character of a run is put by on a step, the whole run is. -/
theorem scanFrom_run {f : List Char → Scanning} {P : Char → Prop}
    (hstep : ∀ cs c, P c → (f cs).step c = some ([], f (c :: cs))) (cs s : List Char)
    (hs : ∀ c ∈ s, P c) : scanFrom (f cs) (s ++ rest) = scanFrom (f (s.reverse ++ cs)) rest := by
  induction s generalizing cs with
  | nil => rfl
  | cons c s ih =>
      rw [List.forall_mem_cons] at hs
      rw [List.cons_append, scanFrom_silent (hstep cs c hs.1), ih _ hs.2, List.reverse_cons,
        List.append_assoc]
      rfl

theorem scanFrom_text (pending s : List Char) (hs : '<' ∉ s) :
    scanFrom (.text pending) (s ++ rest) = scanFrom (.text (s.reverse ++ pending)) rest := by
  refine scanFrom_run (f := .text) (P := (· ≠ '<')) (fun cs c hc ↦ ?_) pending s
    fun c hc h ↦ hs (h ▸ hc)
  simp [Scanning.step, hc]

/-- Whether a text may be the name of a tag or an attribute: it is not empty, and it holds no white
space, quotation mark, equals sign, bracket, slash or ampersand. -/
def PlainName (s : List Char) : Prop :=
  s ≠ [] ∧ ∀ c ∈ s, Text.isBlank c = false ∧ c ∉ ['"', '\'', '=', '<', '>', '/', '&']

instance (s : List Char) : Decidable (PlainName s) :=
  -- named, as going through all characters would decide it too
  @instDecidableAnd _ _ inferInstance (List.decidableBAll _ s)

theorem PlainName.not_mem {s : List Char} (h : PlainName s) {c : Char} (hc : c ∈ s) :
    c ≠ ' ' ∧ c ≠ '=' ∧ c ≠ '>' ∧ c ≠ '/' := by
  obtain ⟨hblank, hmarks⟩ := h.2 c hc
  refine ⟨?_, ?_, ?_, ?_⟩
  · rintro rfl
    exact absurd hblank (by decide)
  all_goals
    rintro rfl
    exact hmarks (by decide)

theorem scanFrom_opening (name s : List Char) (hs : ∀ c ∈ s, c ≠ ' ' ∧ c ≠ '>' ∧ c ≠ '/') :
    scanFrom (.opening name) (s ++ rest) = scanFrom (.opening (s.reverse ++ name)) rest := by
  refine scanFrom_run (f := .opening) (fun cs c hc ↦ ?_) name s hs
  simp [Scanning.step, hc]

theorem scanFrom_closing (name s : List Char) (hs : '>' ∉ s) :
    scanFrom (.closing name) (s ++ rest) = scanFrom (.closing (s.reverse ++ name)) rest := by
  refine scanFrom_run (f := .closing) (P := (· ≠ '>')) (fun cs c hc ↦ ?_) name s
    fun c hc h ↦ hs (h ▸ hc)
  simp [Scanning.step, hc]

variable {tag : List Char} {attrs : List (List Char × Option (List Char))}

theorem scanFrom_naming (name s : List Char) (hs : ∀ c ∈ s, c ≠ ' ' ∧ c ≠ '=' ∧ c ≠ '>') :
    scanFrom (.naming tag attrs name) (s ++ rest) =
      scanFrom (.naming tag attrs (s.reverse ++ name)) rest := by
  refine scanFrom_run (f := .naming tag attrs) (fun cs c hc ↦ ?_) name s hs
  simp [Scanning.step, hc]

theorem scanFrom_value (name v s : List Char) (hs : '"' ∉ s) :
    scanFrom (.value tag attrs name v) (s ++ rest) =
      scanFrom (.value tag attrs name (s.reverse ++ v)) rest := by
  refine scanFrom_run (f := .value tag attrs name) (P := (· ≠ '"')) (fun cs c hc ↦ ?_) v s
    fun c hc h ↦ hs (h ▸ hc)
  simp [Scanning.step, hc]

end Steps

section Spelling

/-- The spelling of an attribute in a tag. -/
def spelledAttribute : List Char × Option (List Char) → List Char
  | (name, none) => ' ' :: name
  | (name, some v) => ' ' :: name ++ '=' :: '"' :: v.flatMap escapeAttributeChar ++ ['"']

def spelledStart (name : List Char) (attrs : List (List Char × Option (List Char))) : List Char :=
  '<' :: name ++ attrs.flatMap spelledAttribute ++ ['>']

def spelledStop (name : List Char) : List Char :=
  '<' :: '/' :: name ++ ['>']

/-- Whether a text is made of the spellings of events, where each text is encoded in a way of its
own. -/
inductive Spells : List Event → List Char → Prop where
  | nil : Spells [] []
  | text {es : List Event} {h : List Char} {encode : Char → List Char} (hencode : Encodes encode)
      (s : List Char) (hes : Spells es h) : Spells (.text s :: es) (s.flatMap encode ++ h)
  | start {es : List Event} {h name : List Char} {attrs : List (List Char × Option (List Char))}
      (hname : PlainName name) (hattrs : ∀ a ∈ attrs, PlainName a.1) (hes : Spells es h) :
      Spells (.start name attrs :: es) (spelledStart name attrs ++ h)
  | stop {es : List Event} {h name : List Char} (hname : PlainName name) (hes : Spells es h) :
      Spells (.stop name :: es) (spelledStop name ++ h)

theorem Spells.append {es fs : List Event} {h k : List Char} (hes : Spells es h)
    (hfs : Spells fs k) : Spells (es ++ fs) (h ++ k) := by
  induction hes with
  | nil => exact hfs
  | text hencode s _ ih =>
      rw [List.append_assoc]
      exact .text hencode s ih
  | start hname hattrs _ ih =>
      rw [List.append_assoc]
      exact .start hname hattrs ih
  | stop hname _ ih =>
      rw [List.append_assoc]
      exact .stop hname ih

/-- What a scanner has read of the attributes of a tag: it stands behind the name, or behind an
attribute. -/
def afterAttributes (tag : List Char) (attrs : List (List Char × Option (List Char))) : Scanning :=
  match attrs with
  | [] => .opening tag.reverse
  | (name, none) :: before => .naming tag before name.reverse
  | (name, some v) :: before => .behind tag ((name, some v) :: before)

variable {tag rest : List Char}

theorem step_blank (attrs : List (List Char × Option (List Char))) :
    (afterAttributes tag attrs).step ' ' = some ([], .naming tag attrs []) := by
  match attrs with
  | [] => simp [afterAttributes, Scanning.step]
  | (name, none) :: before => simp [afterAttributes, Scanning.step]
  | (name, some v) :: before => simp [afterAttributes, Scanning.step]

theorem step_bracket (attrs : List (List Char × Option (List Char))) :
    (afterAttributes tag attrs).step '>' = some ([.start tag attrs.reverse], .text []) := by
  match attrs with
  | [] => simp [afterAttributes, Scanning.step]
  | (name, none) :: before => simp [afterAttributes, Scanning.step]
  | (name, some v) :: before => simp [afterAttributes, Scanning.step]

theorem scanFrom_spelledAttribute (attrs : List (List Char × Option (List Char))) {a : List Char × Option (List Char)}
    (ha : PlainName a.1) :
    scanFrom (afterAttributes tag attrs) (spelledAttribute a ++ rest) =
      scanFrom (afterAttributes tag (a :: attrs)) rest := by
  obtain ⟨name, v⟩ := a
  have hname : ∀ c ∈ name, c ≠ ' ' ∧ c ≠ '=' ∧ c ≠ '>' := by
    intro c hc
    obtain ⟨hblank, hequals, hbracket, -⟩ := PlainName.not_mem ha hc
    exact ⟨hblank, hequals, hbracket⟩
  cases v with
  | none =>
      simp only [spelledAttribute, List.cons_append]
      rw [scanFrom_silent (step_blank attrs), scanFrom_naming _ _ hname]
      simp [afterAttributes]
  | some v =>
      have hquote : '"' ∉ v.flatMap escapeAttributeChar := by
        simp only [List.mem_flatMap, not_exists, not_and]
        exact fun c _ ↦ quote_not_mem_escapeAttributeChar c
      have hequals : (Scanning.naming tag attrs (name.reverse ++ [])).step '=' =
          some ([], .quote tag attrs name) := by
        simp [Scanning.step]
      have hopen : (Scanning.quote tag attrs name).step '"' =
          some ([], .value tag attrs name []) := by
        simp [Scanning.step]
      have hdecode : decode (v.flatMap escapeAttributeChar) = v := by
        simpa [decode] using decode_flatMap encodes_escapeAttributeChar v []
      have hclose : (Scanning.value tag attrs name
          ((v.flatMap escapeAttributeChar).reverse ++ [])).step '"' =
          some ([], .behind tag ((name, some v) :: attrs)) := by
        simp [Scanning.step, hdecode]
      simp only [spelledAttribute, List.cons_append, List.append_assoc, List.nil_append]
      rw [scanFrom_silent (step_blank attrs), scanFrom_naming _ _ hname,
        scanFrom_silent hequals, scanFrom_silent hopen, scanFrom_value _ _ _ hquote,
        scanFrom_silent hclose]
      rfl

theorem scanFrom_spelledAttributes (attrs : List (List Char × Option (List Char))) {more : List (List Char × Option (List Char))}
    (hmore : ∀ a ∈ more, PlainName a.1) :
    scanFrom (afterAttributes tag attrs) (more.flatMap spelledAttribute ++ rest) =
      scanFrom (afterAttributes tag (more.reverse ++ attrs)) rest := by
  induction more generalizing attrs with
  | nil => rfl
  | cons a more ih =>
      rw [List.forall_mem_cons] at hmore
      rw [List.flatMap_cons, List.append_assoc, scanFrom_spelledAttribute attrs hmore.1,
        ih _ hmore.2]
      simp

theorem scanFrom_spelledStart (pending : List Char) (htag : PlainName tag)
    {attrs : List (List Char × Option (List Char))} (hattrs : ∀ a ∈ attrs, PlainName a.1) :
    scanFrom (.text pending) (spelledStart tag attrs ++ rest) =
      (scanFrom (.text []) rest).map (pendingEvents pending ++ .start tag attrs :: ·) := by
  have hopen : (Scanning.text pending).step '<' = some (pendingEvents pending, .opening []) := by
    simp [Scanning.step]
  have hname : ∀ c ∈ tag, c ≠ ' ' ∧ c ≠ '>' ∧ c ≠ '/' := by
    intro c hc
    obtain ⟨hblank, -, hbracket, hslash⟩ := htag.not_mem hc
    exact ⟨hblank, hbracket, hslash⟩
  have hattributes (rest : List Char) :
      scanFrom (.opening tag.reverse) (attrs.flatMap spelledAttribute ++ rest) =
        scanFrom (afterAttributes tag (attrs.reverse ++ [])) rest :=
    scanFrom_spelledAttributes [] hattrs
  simp only [spelledStart, List.cons_append, List.append_assoc, List.nil_append]
  rw [scanFrom_cons hopen, scanFrom_opening _ _ hname, List.append_nil, hattributes,
    scanFrom_cons (step_bracket _), Option.map_map]
  simp [Function.comp_def]

theorem scanFrom_spelledStop (pending : List Char) (htag : PlainName tag) :
    scanFrom (.text pending) (spelledStop tag ++ rest) =
      (scanFrom (.text []) rest).map (pendingEvents pending ++ .stop tag :: ·) := by
  have hopen : (Scanning.text pending).step '<' = some (pendingEvents pending, .opening []) := by
    simp [Scanning.step]
  have hslash : (Scanning.opening []).step '/' = some ([], .closing []) := by
    simp [Scanning.step]
  have hclose : (Scanning.closing (tag.reverse ++ [])).step '>' = some ([.stop tag], .text []) := by
    simp [Scanning.step]
  have hname : '>' ∉ tag := fun h ↦ (htag.not_mem h).2.2.1 rfl
  simp only [spelledStop, List.cons_append, List.append_assoc, List.nil_append]
  rw [scanFrom_cons hopen, scanFrom_silent hslash, scanFrom_closing _ _ hname, scanFrom_cons hclose,
    Option.map_map]
  simp [Function.comp_def]

/-- Events in which neighbouring texts are joined behind a text that waits, and empty ones are left
out. -/
def joinedFrom (pending : List Char) : List Event → List Event
  | [] => textEvents pending
  | .text s :: es => joinedFrom (pending ++ s) es
  | .start name attrs :: es => textEvents pending ++ .start name attrs :: joinedFrom [] es
  | .stop name :: es => textEvents pending ++ .stop name :: joinedFrom [] es

def joined (es : List Event) : List Event :=
  joinedFrom [] es

/-- Whether characters are an encoding of a text, whatever follows them. -/
def Writes (raw s : List Char) : Prop :=
  ∀ rest, decode (raw ++ rest) = s ++ decode rest

theorem Writes.nil : Writes [] [] :=
  fun _ ↦ rfl

theorem Writes.append {raw s : List Char} (h : Writes raw s) {encode : Char → List Char}
    (hencode : Encodes encode) (t : List Char) : Writes (raw ++ t.flatMap encode) (s ++ t) := by
  intro rest
  rw [List.append_assoc, h, decode_flatMap hencode, List.append_assoc]

theorem Writes.pendingEvents {raw s : List Char} (h : Writes raw s) :
    pendingEvents raw.reverse = textEvents s := by
  have hdecode : decode raw = s := by simpa [decode] using h []
  rw [Html.pendingEvents, List.reverse_reverse, hdecode]

/-- Scanning what spells events, behind a text that has been read in part. -/
theorem scanFrom_of_spells {es : List Event} {h : List Char} (hes : Spells es h)
    {raw s : List Char} (hraw : Writes raw s) :
    scanFrom (.text raw.reverse) h = some (joinedFrom s es) := by
  induction hes generalizing raw s with
  | nil => simp [scanFrom, joinedFrom, hraw.pendingEvents]
  | @text es h encode hencode t _ ih =>
      have hbracket : '<' ∉ t.flatMap encode := by
        simp only [List.mem_flatMap, not_exists, not_and]
        exact fun c _ ↦ hencode.not_bracket c
      rw [scanFrom_text _ _ hbracket, ← List.reverse_append, ih (hraw.append hencode t), joinedFrom]
  | start hname hattrs _ ih =>
      rw [scanFrom_spelledStart _ hname hattrs, hraw.pendingEvents]
      simpa [joinedFrom] using ih Writes.nil
  | stop hname _ ih =>
      rw [scanFrom_spelledStop _ hname, hraw.pendingEvents]
      simpa [joinedFrom] using ih Writes.nil

/-- Spelled events are read back with neighbouring texts joined. -/
theorem scan_of_spells {es : List Event} {h : List Char} (hes : Spells es h) :
    scan (String.ofList h) = some (joined es) := by
  simpa [scan, joined] using scanFrom_of_spells hes Writes.nil

theorem not_mem_textEvents {e : Event} (htag : e.isTag = true) (s : List Char) :
    e ∉ textEvents s := by
  unfold textEvents
  split_ifs
  · simp
  · rw [List.mem_singleton]
    rintro rfl
    cases htag

/-- Joining texts makes no tag. -/
theorem mem_of_mem_joinedFrom {e : Event} (htag : e.isTag = true) {pending : List Char}
    {es : List Event} (h : e ∈ joinedFrom pending es) : e ∈ es := by
  induction es generalizing pending with
  | nil => exact absurd h (not_mem_textEvents htag pending)
  | cons f es ih =>
      cases f with
      | text s => exact List.mem_cons_of_mem _ (ih h)
      | start name attrs =>
          rcases List.mem_append.mp h with h | h
          · exact absurd h (not_mem_textEvents htag pending)
          · exact List.mem_cons.mpr ((List.mem_cons.mp h).imp_right ih)
      | stop name =>
          rcases List.mem_append.mp h with h | h
          · exact absurd h (not_mem_textEvents htag pending)
          · exact List.mem_cons.mpr ((List.mem_cons.mp h).imp_right ih)

end Spelling

end SafeMarkdown.Html
