import SafeMarkdown.Proofs.Json.ReadBack

/-!
# Spellings of JSON values

The grammar of JSON as a relation between values and their texts: white space may stand around every
part, a character of a string may be written as it is or by an escape, and a number may have a point
and an exponent. Whatever spelling of a value is chosen, it is read as that value.
-/

namespace SafeMarkdown.Json

section Grammar

/-- White space between the parts of a text. -/
def IsSpaces (s : List Char) : Prop :=
  ∀ c ∈ s, isSpace c = true

/-- Something spelled with white space around it. -/
def Padded (spelled : List Char → Prop) (s : List Char) : Prop :=
  ∃ before text after, s = before ++ (text ++ after) ∧ IsSpaces before ∧ IsSpaces after ∧
    spelled text

/-- The ways to write a character of a string: as it is, by the name of a control character, by its
code, or by the codes of a surrogate pair. -/
inductive SpellsChar (c : Char) : List Char → Prop
  | plain (hcontrol : 32 ≤ c.toNat) (hquote : c ≠ '"') (hbackslash : c ≠ '\\') : SpellsChar c [c]
  | named {e : Char} (h : simpleEscape? e = some c) : SpellsChar c ['\\', e]
  | code {ds : List Char} (h : hexFour ds = some (c.toNat, [])) : SpellsChar c ('\\' :: 'u' :: ds)
  | pair {ds es : List Char} {high low : Nat} (hds : hexFour ds = some (0xd800 + high, []))
      (hes : hexFour es = some (0xdc00 + low, [])) (hhigh : high < 0x400) (hlow : low < 0x400)
      (h : c.toNat = 0x10000 + high * 0x400 + low) :
      SpellsChar c ('\\' :: 'u' :: (ds ++ '\\' :: 'u' :: es))

def SpellsChars : List Char → List Char → Prop
  | [], s => s = []
  | c :: cs, s => ∃ first more, s = first ++ more ∧ SpellsChar c first ∧ SpellsChars cs more

def SpellsString (t : String) (s : List Char) : Prop :=
  ∃ body, s = '"' :: (body ++ ['"']) ∧ SpellsChars t.toList body

def signText (negative : Bool) : List Char :=
  if negative then ['-'] else []

/-- An integer of at most 4300 digits. -/
def SpellsInt (n : Int) (s : List Char) : Prop :=
  ∃ negative ds, s = signText negative ++ ds ∧ Whole ds ∧ ds.length ≤ 4300 ∧
    n = if negative then -(natOf ds : Int) else natOf ds

/-- One digit or more. -/
def IsDigits (ds : List Char) : Prop :=
  ds ≠ [] ∧ ∀ c ∈ ds, isDigit c = true

inductive SpellsExponent : Int → List Char → Prop
  | plain {mark : Char} {ds : List Char} (hmark : mark = 'e' ∨ mark = 'E') (hds : IsDigits ds) :
      SpellsExponent (natOf ds) (mark :: ds)
  | plus {mark : Char} {ds : List Char} (hmark : mark = 'e' ∨ mark = 'E') (hds : IsDigits ds) :
      SpellsExponent (natOf ds) (mark :: '+' :: ds)
  | minus {mark : Char} {ds : List Char} (hmark : mark = 'e' ∨ mark = 'E') (hds : IsDigits ds) :
      SpellsExponent (-(natOf ds : Int)) (mark :: '-' :: ds)

/-- A number with a point, an exponent or both is the double next to it. -/
inductive SpellsDouble : Double → List Char → Prop
  | point (negative : Bool) {whole fraction : List Char} (hwhole : Whole whole)
      (hfraction : IsDigits fraction) :
      SpellsDouble (.ofDecimal negative (natOf (whole ++ fraction)) (-fraction.length))
        (signText negative ++ (whole ++ '.' :: fraction))
  | exponent (negative : Bool) {whole exponent : List Char} {e : Int} (hwhole : Whole whole)
      (he : SpellsExponent e exponent) :
      SpellsDouble (.ofDecimal negative (natOf whole) e) (signText negative ++ (whole ++ exponent))
  | both (negative : Bool) {whole fraction exponent : List Char} {e : Int} (hwhole : Whole whole)
      (hfraction : IsDigits fraction) (he : SpellsExponent e exponent) :
      SpellsDouble (.ofDecimal negative (natOf (whole ++ fraction)) (e - fraction.length))
        (signText negative ++ (whole ++ '.' :: (fraction ++ exponent)))

mutual

/-- The texts of a value, without white space around them. -/
def Spells : Value → List Char → Prop
  | .null, s => s = "null".toList
  | .bool b, s => s = (if b then "true" else "false").toList
  | .int n, s => SpellsInt n s
  | .float x, s => SpellsDouble x s
  | .str t, s => SpellsString t s
  | .bytes _, _ => False
  | .date _, _ => False
  | .moment _, _ => False
  | .arr items, s => ∃ inner, s = '[' :: (inner ++ [']']) ∧ SpellsItems items inner
  | .obj fields, s => (fields.map Prod.fst).Nodup ∧
      ∃ inner, s = '\x7b' :: (inner ++ ['\x7d']) ∧ SpellsFields fields inner

def SpellsItems : List Value → List Char → Prop
  | [], s => IsSpaces s
  | [v], s => Padded (Spells v) s
  | v :: w :: rest, s => ∃ first more, s = first ++ ',' :: more ∧ Padded (Spells v) first ∧
      SpellsItems (w :: rest) more

def SpellsFields : List (String × Value) → List Char → Prop
  | [], s => IsSpaces s
  | [(name, v)], s => ∃ named valued, s = named ++ ':' :: valued ∧
      Padded (SpellsString name) named ∧ Padded (Spells v) valued
  | (name, v) :: f :: rest, s => ∃ named valued more, s = named ++ ':' :: (valued ++ ',' :: more) ∧
      Padded (SpellsString name) named ∧ Padded (Spells v) valued ∧ SpellsFields (f :: rest) more

end

end Grammar

section Spaces

variable {s rest : List Char}

theorem skipSpace_append (h : IsSpaces s) (rest : List Char) :
    skipSpace (s ++ rest) = skipSpace rest :=
  List.dropWhile_append_of_pos h

theorem skipSpace_spaces (h : IsSpaces s) : skipSpace s = [] := by
  have hskip := skipSpace_append h []
  rwa [List.append_nil] at hskip

/-- Behind white space stands what is spelled, and white space behind it. -/
theorem Padded.skipSpace {spelled : List Char → Prop} (h : Padded spelled s)
    (hstarts : ∀ text, spelled text → Starts text) (rest : List Char) :
    ∃ text after, Json.skipSpace (s ++ rest) = text ++ (after ++ rest) ∧ spelled text ∧
      IsSpaces after ∧ text.length ≤ s.length := by
  obtain ⟨before, text, after, rfl, hbefore, hafter, htext⟩ := h
  refine ⟨text, after, ?_, htext, hafter, ?_⟩
  · rw [List.append_assoc, skipSpace_append hbefore, List.append_assoc]
    exact ((hstarts text htext).append _).skipSpace
  · rw [List.length_append, List.length_append]
    omega

/-- What may follow a value: nothing, white space, or a sign that ends it. -/
def Ends (rest : List Char) : Prop :=
  ∀ c ∈ rest.head?, isSpace c = true ∨ c = ',' ∨ c = ']' ∨ c = '\x7d'

theorem ends_append (hs : IsSpaces s) (hrest : Ends rest) : Ends (s ++ rest) := by
  cases s with
  | nil => exact hrest
  | cons c s =>
      rintro d ⟨⟩
      exact .inl (hs c List.mem_cons_self)

theorem ends_cons {c : Char} (h : c = ',' ∨ c = ']' ∨ c = '\x7d') (rest : List Char) :
    Ends (c :: rest) := by
  rintro d ⟨⟩
  exact .inr h

/-- What ends a value goes on with no number. -/
theorem Ends.ne (h : Ends rest) : NoDigit rest ∧ (∀ c ∈ rest.head?, c ≠ '.') ∧
    ∀ c ∈ rest.head?, c ≠ 'e' ∧ c ≠ 'E' := by
  have hall : ∀ c ∈ rest.head?, isDigit c = false ∧ c ≠ '.' ∧ c ≠ 'e' ∧ c ≠ 'E' := by
    intro c hc
    rcases h c hc with hspace | rfl | rfl | rfl
    · simp only [isSpace, Bool.or_eq_true, beq_iff_eq] at hspace
      rcases hspace with ((rfl | rfl) | rfl) | rfl <;> decide
    · decide
    · decide
    · decide
  exact ⟨fun c hc ↦ (hall c hc).1, fun c hc ↦ (hall c hc).2.1, fun c hc ↦ (hall c hc).2.2⟩

end Spaces

section Strings

variable {c : Char} {s : List Char}

theorem hexFour_eq_some {n : Nat} (h : hexFour s = some (n, [])) (more : List Char) :
    hexFour (s ++ more) = some (n, more) := by
  have hlength : s.length = 4 := by
    unfold hexFour at h
    split at h
    · rename_i a b c d rest
      cases ha : hexValue? a <;> cases hb : hexValue? b <;> cases hc : hexValue? c <;>
        cases hd : hexValue? d <;> simp_all
    · cases h
  rw [hexFour_append hlength, h]
  rfl

/-- The code of a character is read as that character. -/
theorem unicodeEscape_code (h : hexFour s = some (c.toNat, [])) (more : List Char) :
    unicodeEscape (s ++ more) = some (c, more) := by
  have hvalid : c.toNat < 0xd800 ∨ 0xdfff < c.toNat ∧ c.toNat < 0x110000 := c.valid
  have hhigh : ¬ (0xd800 ≤ c.toNat ∧ c.toNat < 0xdc00) := by omega
  have hlow : ¬ (0xdc00 ≤ c.toNat ∧ c.toNat < 0xe000) := by omega
  rw [unicodeEscape, hexFour_eq_some h]
  simp only [Option.bind_eq_bind, Option.bind_some, Bool.and_eq_true, decide_eq_true_eq]
  rw [if_neg hhigh, if_neg hlow, Char.ofNat_toNat]

theorem unicodeEscape_pair {es : List Char} {high low : Nat}
    (hds : hexFour s = some (0xd800 + high, [])) (hes : hexFour es = some (0xdc00 + low, []))
    (hhigh : high < 0x400) (hlow : low < 0x400) (h : c.toNat = 0x10000 + high * 0x400 + low)
    (more : List Char) :
    unicodeEscape (s ++ '\\' :: 'u' :: (es ++ more)) = some (c, more) := by
  have hfirst : 0xd800 ≤ 0xd800 + high ∧ 0xd800 + high < 0xdc00 := by omega
  have hsecond : 0xdc00 ≤ 0xdc00 + low ∧ 0xdc00 + low < 0xe000 := by omega
  have hchar : 0x10000 + (0xd800 + high - 0xd800) * 0x400 + (0xdc00 + low - 0xdc00) = c.toNat := by
    omega
  rw [unicodeEscape, hexFour_eq_some hds]
  simp only [Option.bind_eq_bind, Option.bind_some, Bool.and_eq_true, decide_eq_true_eq]
  rw [if_pos hfirst, hexFour_eq_some hes]
  dsimp only
  rw [if_pos hsecond, hchar, Char.ofNat_toNat]

theorem stringRest_escape {e : Char} (he : e ≠ 'u') (h : simpleEscape? e = some c) (fuel : Nat)
    (more : List Char) : stringRest (fuel + 1) ('\\' :: e :: more) =
      (stringRest fuel more).map fun r ↦ (c :: r.1, r.2) := by
  rw [stringRest, if_neg (by decide), if_pos (by decide)]
  cases stringRest fuel more <;> simp [he, h]

theorem stringRest_unicode {s more : List Char} (h : unicodeEscape s = some (c, more)) (fuel : Nat) :
    stringRest (fuel + 1) ('\\' :: 'u' :: s) =
      (stringRest fuel more).map fun r ↦ (c :: r.1, r.2) := by
  rw [stringRest, if_neg (by decide), if_pos (by decide)]
  cases hrest : stringRest fuel more <;> simp [h, hrest]

/-- A character of a string takes one round to read, however it is spelled. -/
theorem stringRest_char (h : SpellsChar c s) (fuel : Nat) (more : List Char) :
    stringRest (fuel + 1) (s ++ more) =
      (stringRest fuel more).map fun r ↦ (c :: r.1, r.2) := by
  cases h with
  | plain hcontrol hquote hbackslash =>
      have hcontrol : ¬ c.toNat < 32 := Nat.not_lt.mpr hcontrol
      rw [List.singleton_append, stringRest.eq_def]
      dsimp only
      rw [if_neg (by simpa using hquote), if_neg (by simpa using hbackslash), if_neg hcontrol]
      cases stringRest fuel more <;> rfl
  | @named e h =>
      have he : e ≠ 'u' := by
        rintro rfl
        cases h
      exact stringRest_escape he h fuel more
  | code h => exact stringRest_unicode (unicodeEscape_code h more) fuel
  | pair hds hes hhigh hlow h =>
      have hread := unicodeEscape_pair hds hes hhigh hlow h more
      rw [List.cons_append, List.cons_append, List.append_assoc, List.cons_append, List.cons_append]
      exact stringRest_unicode hread fuel

theorem SpellsChar.length_pos (h : SpellsChar c s) : 0 < s.length := by
  cases h <;> exact Nat.succ_pos _

theorem SpellsChars.length_le {cs s : List Char} (h : SpellsChars cs s) : cs.length ≤ s.length := by
  induction cs generalizing s with
  | nil => exact Nat.zero_le _
  | cons c cs ih =>
      obtain ⟨first, more, rfl, hfirst, hmore⟩ := h
      have hpos := hfirst.length_pos
      have hle := ih hmore
      rw [List.length_append, List.length_cons]
      omega

theorem stringRest_chars {cs s : List Char} (h : SpellsChars cs s) {fuel : Nat}
    (hfuel : cs.length < fuel) (after : List Char) :
    stringRest fuel (s ++ '"' :: after) = some (cs, after) := by
  obtain ⟨fuel, rfl⟩ : ∃ k, fuel = k + 1 := ⟨fuel - 1, by omega⟩
  induction cs generalizing s fuel with
  | nil =>
      cases h
      rfl
  | cons c cs ih =>
      obtain ⟨first, more, rfl, hfirst, hmore⟩ := h
      rw [List.length_cons] at hfuel
      obtain ⟨fuel, rfl⟩ : ∃ k, fuel = k + 1 := ⟨fuel - 1, by omega⟩
      rw [List.append_assoc, stringRest_char hfirst, ih hmore fuel (by omega)]
      rfl

/-- A string is read behind its opening quote. -/
theorem SpellsString.read {t : String} {s : List Char} (h : SpellsString t s) (after : List Char) :
    ∃ body, s ++ after = '"' :: body ∧ stringRest (body.length + 1) body = some (t.toList, after) := by
  obtain ⟨body, rfl, hbody⟩ := h
  refine ⟨body ++ '"' :: after, by simp, stringRest_chars hbody ?_ after⟩
  have hle := hbody.length_le
  rw [List.length_append]
  omega

theorem SpellsString.starts {t : String} {s : List Char} (h : SpellsString t s) : Starts s := by
  obtain ⟨body, rfl, -⟩ := h
  exact ⟨'"', _, rfl, by decide, by decide, by decide⟩

end Strings

section Numbers

variable {rest : List Char}

theorem IsDigits.exists_cons {ds : List Char} (h : IsDigits ds) :
    ∃ c cs, ds = c :: cs ∧ isDigit c = true := by
  obtain ⟨hne, hdigits⟩ := h
  obtain ⟨c, cs, rfl⟩ := List.exists_cons_of_ne_nil hne
  exact ⟨c, cs, rfl, hdigits c List.mem_cons_self⟩

theorem exponentPart_spelled {e : Int} {s : List Char} (h : SpellsExponent e s)
    (hrest : NoDigit rest) : exponentPart (s ++ rest) = (some e, rest) := by
  have hmark {mark : Char} (h : mark = 'e' ∨ mark = 'E') : (mark == 'e' || mark == 'E') = true := by
    rcases h with rfl | rfl <;> rfl
  cases h with
  | @plain mark ds h hds =>
      obtain ⟨htake, hdrop⟩ := span_digits hds.2 hrest
      obtain ⟨c, cs, hcons, hc⟩ := hds.exists_cons
      have hsign {sign : Char} (hsign : isDigit sign = false) :
          ∀ more, ds ++ rest = sign :: more → False := by
        rintro more heq
        rw [hcons] at heq
        cases heq
        rw [hc] at hsign
        cases hsign
      rw [List.cons_append, exponentPart, if_pos (hmark h)]
      · simp only [htake, hdrop, List.isEmpty_iff, hds.1, if_false, Bool.false_eq_true]
      · exact hsign rfl
      · exact hsign rfl
  | plus h hds =>
      obtain ⟨htake, hdrop⟩ := span_digits hds.2 hrest
      rw [List.cons_append, List.cons_append, exponentPart, if_pos (hmark h)]
      simp only [htake, hdrop, List.isEmpty_iff, hds.1, if_false, Bool.false_eq_true]
  | minus h hds =>
      obtain ⟨htake, hdrop⟩ := span_digits hds.2 hrest
      rw [List.cons_append, List.cons_append, exponentPart, if_pos (hmark h)]
      simp only [htake, hdrop, List.isEmpty_iff, hds.1, if_false, if_true]

/-- An exponent starts with its mark. -/
theorem SpellsExponent.head {e : Int} {s : List Char} (h : SpellsExponent e s) :
    NoDigit (s ++ rest) ∧ ∀ c ∈ (s ++ rest).head?, c ≠ '.' := by
  have hmark {mark : Char} (h : mark = 'e' ∨ mark = 'E') : isDigit mark = false ∧ mark ≠ '.' := by
    rcases h with rfl | rfl <;> decide
  cases h with
  | plain h hds | plus h hds | minus h hds =>
      constructor
      · rintro c ⟨⟩
        exact (hmark h).1
      · rintro c ⟨⟩
        exact (hmark h).2

theorem noDigit_point (s : List Char) : NoDigit ('.' :: s) := by
  rintro c ⟨⟩
  rfl

/-- The value that a sign and digits of three kinds write, in front of what ends it. -/
theorem value_spelledInt {n : Int} {s : List Char} (h : SpellsInt n s) (hrest : Ends rest) :
    Starts (s ++ rest) ∧ ∀ fuel, value (fuel + 1) (s ++ rest) = some (.int n, rest) := by
  obtain ⟨negative, ds, rfl, hwhole, hlength, rfl⟩ := h
  obtain ⟨hdigit, hpoint, hexponent⟩ := hrest.ne
  have hread : unsignedNumber negative (ds ++ rest) =
      some (.int (if negative then -(natOf ds : Int) else natOf ds), rest) := by
    rw [unsignedNumber_whole negative hwhole hdigit, afterWhole, fractionPart_of_ne hpoint]
    dsimp only
    rw [exponentPart_of_ne hexponent]
    simp only [List.isEmpty_nil, if_true]
    rw [if_neg (Nat.not_lt.mpr hlength)]
  rw [List.append_assoc]
  exact signed_of_unsignedNumber hread

theorem value_spelledDouble {x : Double} {s : List Char} (h : SpellsDouble x s)
    (hrest : Ends rest) :
    Starts (s ++ rest) ∧ ∀ fuel, value (fuel + 1) (s ++ rest) = some (.float x, rest) := by
  obtain ⟨hdigit, -, hnoExponent⟩ := hrest.ne
  cases h with
  | @point negative whole fraction hwhole hfraction =>
      have hread : unsignedNumber negative (whole ++ '.' :: (fraction ++ rest)) =
          some (.float (.ofDecimal negative (natOf (whole ++ fraction)) (-fraction.length)), rest) := by
        rw [unsignedNumber_whole negative hwhole (noDigit_point _), afterWhole,
          fractionPart_point hfraction.1 hfraction.2 hdigit]
        dsimp only
        rw [exponentPart_of_ne hnoExponent]
        simp only [List.isEmpty_iff, hfraction.1, if_false]
      rw [List.append_assoc, List.append_assoc, List.cons_append]
      exact signed_of_unsignedNumber hread
  | @exponent negative whole exponent e hwhole he =>
      have hread : unsignedNumber negative (whole ++ (exponent ++ rest)) =
          some (.float (.ofDecimal negative (natOf whole) e), rest) := by
        rw [unsignedNumber_whole negative hwhole he.head.1, afterWhole,
          fractionPart_of_ne he.head.2]
        dsimp only
        rw [exponentPart_spelled he hdigit]
        simp only [List.append_nil, List.length_nil, Nat.cast_zero, sub_zero]
      rw [List.append_assoc, List.append_assoc]
      exact signed_of_unsignedNumber hread
  | @both negative whole fraction exponent e hwhole hfraction he =>
      have hread : unsignedNumber negative (whole ++ '.' :: (fraction ++ (exponent ++ rest))) =
          some (.float (.ofDecimal negative (natOf (whole ++ fraction)) (e - fraction.length)),
            rest) := by
        rw [unsignedNumber_whole negative hwhole (noDigit_point _), afterWhole,
          fractionPart_point hfraction.1 hfraction.2 he.head.1]
        dsimp only
        rw [exponentPart_spelled he hdigit]
      rw [List.append_assoc, List.append_assoc, List.cons_append, List.append_assoc]
      exact signed_of_unsignedNumber hread

end Numbers

section Values

variable {rest : List Char}

theorem ends_nil : Ends [] := by
  rintro c ⟨⟩

theorem spells_starts {v : Value} {s : List Char} (h : Spells v s) : Starts s := by
  cases v with
  | null =>
      cases h
      exact ⟨'n', _, rfl, by decide, by decide, by decide⟩
  | bool b =>
      cases h
      cases b with
      | true => exact ⟨'t', _, rfl, by decide, by decide, by decide⟩
      | false => exact ⟨'f', _, rfl, by decide, by decide, by decide⟩
  | int n =>
      have hstarts := (value_spelledInt h ends_nil).1
      rwa [List.append_nil] at hstarts
  | float x =>
      have hstarts := (value_spelledDouble h ends_nil).1
      rwa [List.append_nil] at hstarts
  | str t => exact SpellsString.starts h
  | bytes bs => cases h
  | date d => cases h
  | moment m => cases h
  | arr items =>
      obtain ⟨inner, rfl, -⟩ := h
      exact ⟨'[', _, rfl, by decide, by decide, by decide⟩
  | obj fields =>
      obtain ⟨-, inner, rfl, -⟩ := h
      exact ⟨'\x7b', _, rfl, by decide, by decide, by decide⟩

theorem skipSpace_end {after : List Char} (h : IsSpaces after) {c : Char}
    (hc : isSpace c = false) (rest : List Char) : skipSpace (after ++ c :: rest) = c :: rest := by
  rw [skipSpace_append h, skipSpace_cons hc]

theorem fieldRead_padded {fuel : Nat} {name : String} {v : Value} {named s t behind : List Char}
    (hnamed : Padded (SpellsString name) named) (hskip : skipSpace s = t)
    (hread : value fuel t = some (v, behind)) :
    Starts (skipSpace (named ++ ':' :: s)) ∧
      FieldRead fuel (skipSpace (named ++ ':' :: s)) name v behind := by
  obtain ⟨text, after, hstart, htext, hafter, -⟩ :=
    hnamed.skipSpace (fun _ h ↦ h.starts) (':' :: s)
  obtain ⟨body, hbody, hname⟩ := htext.read (after ++ ':' :: s)
  rw [hstart]
  exact ⟨htext.starts.append _,
    ⟨body, _, s, t, hbody, hname, skipSpace_end hafter (by decide) s, hskip, hread⟩⟩

theorem starts_items {v : Value} {vs : List Value} {s : List Char} (h : SpellsItems (v :: vs) s)
    (rest : List Char) : Starts (skipSpace (s ++ rest)) := by
  cases vs with
  | nil =>
      obtain ⟨text, after, hstart, htext, -, -⟩ := Padded.skipSpace h (fun _ ↦ spells_starts) rest
      rw [hstart]
      exact (spells_starts htext).append _
  | cons w vs =>
      obtain ⟨first, more, rfl, hfirst, -⟩ := h
      rw [List.append_assoc]
      obtain ⟨text, after, hstart, htext, -, -⟩ :=
        hfirst.skipSpace (fun _ ↦ spells_starts) (',' :: more ++ rest)
      rw [hstart]
      exact (spells_starts htext).append _

theorem starts_fields {f : String × Value} {fs : List (String × Value)} {s : List Char}
    (h : SpellsFields (f :: fs) s) (rest : List Char) : Starts (skipSpace (s ++ rest)) := by
  obtain ⟨name, v⟩ := f
  have hnamed : ∃ named more, s = named ++ ':' :: more ∧ Padded (SpellsString name) named := by
    cases fs with
    | nil =>
        obtain ⟨named, valued, rfl, hnamed, -⟩ := h
        exact ⟨named, valued, rfl, hnamed⟩
    | cons g fs =>
        obtain ⟨named, valued, more, rfl, hnamed, -⟩ := h
        exact ⟨named, _, rfl, hnamed⟩
  obtain ⟨named, more, rfl, hnamed⟩ := hnamed
  rw [List.append_assoc]
  obtain ⟨text, after, hstart, htext, -, -⟩ :=
    hnamed.skipSpace (fun _ h ↦ h.starts) (':' :: more ++ rest)
  rw [hstart]
  exact htext.starts.append _

mutual

/-- Every spelling of a value is read as that value, whatever ends it. -/
theorem value_spelled : (v : Value) → {s : List Char} → Spells v s → {fuel : Nat} →
    s.length < fuel → {rest : List Char} → Ends rest → value fuel (s ++ rest) = some (v, rest)
  | .null, s, h, fuel, hfuel, rest, _ => by
      obtain ⟨fuel, rfl⟩ : ∃ k, fuel = k + 1 := ⟨fuel - 1, by omega⟩
      cases h
      rfl
  | .bool b, s, h, fuel, hfuel, rest, _ => by
      obtain ⟨fuel, rfl⟩ : ∃ k, fuel = k + 1 := ⟨fuel - 1, by omega⟩
      cases h
      cases b <;> rfl
  | .int n, s, h, fuel, hfuel, rest, hrest => by
      obtain ⟨fuel, rfl⟩ : ∃ k, fuel = k + 1 := ⟨fuel - 1, by omega⟩
      exact (value_spelledInt h hrest).2 fuel
  | .float x, s, h, fuel, hfuel, rest, hrest => by
      obtain ⟨fuel, rfl⟩ : ∃ k, fuel = k + 1 := ⟨fuel - 1, by omega⟩
      exact (value_spelledDouble h hrest).2 fuel
  | .str t, s, h, fuel, hfuel, rest, _ => by
      obtain ⟨fuel, rfl⟩ : ∃ k, fuel = k + 1 := ⟨fuel - 1, by omega⟩
      obtain ⟨body, hbody, hread⟩ := SpellsString.read h rest
      rw [hbody, value, hread]
      simp
  | .bytes _, s, h, _, _, _, _ => h.elim
  | .date _, s, h, _, _, _, _ => h.elim
  | .moment _, s, h, _, _, _, _ => h.elim
  | .arr [], s, h, fuel, hfuel, rest, _ => by
      obtain ⟨fuel, rfl⟩ : ∃ k, fuel = k + 1 := ⟨fuel - 1, by omega⟩
      obtain ⟨inner, rfl, hinner⟩ := h
      have hskip : skipSpace (inner ++ ']' :: rest) = ']' :: rest :=
        skipSpace_end hinner (by decide) rest
      rw [List.cons_append, List.append_assoc, List.singleton_append, value.eq_def]
      simp only [hskip]
  | .arr (v :: vs), s, h, fuel, hfuel, rest, _ => by
      obtain ⟨fuel, rfl⟩ : ∃ k, fuel = k + 1 := ⟨fuel - 1, by omega⟩
      obtain ⟨inner, rfl, hinner⟩ := h
      rw [List.length_cons, List.length_append, List.length_singleton] at hfuel
      rw [List.cons_append, List.append_assoc, List.singleton_append]
      exact value_items rfl (starts_items hinner _)
        (items_spelled (v :: vs) (List.cons_ne_nil _ _) hinner (by omega : _ < fuel) rest)
  | .obj [], s, h, fuel, hfuel, rest, _ => by
      obtain ⟨fuel, rfl⟩ : ∃ k, fuel = k + 1 := ⟨fuel - 1, by omega⟩
      obtain ⟨-, inner, rfl, hinner⟩ := h
      have hskip : skipSpace (inner ++ '\x7d' :: rest) = '\x7d' :: rest :=
        skipSpace_end hinner (by decide) rest
      rw [List.cons_append, List.append_assoc, List.singleton_append, value.eq_def]
      simp only [hskip]
  | .obj (f :: fs), s, h, fuel, hfuel, rest, _ => by
      obtain ⟨fuel, rfl⟩ : ∃ k, fuel = k + 1 := ⟨fuel - 1, by omega⟩
      obtain ⟨hnodup, inner, rfl, hinner⟩ := h
      rw [List.length_cons, List.length_append, List.length_singleton] at hfuel
      have hvalue := value_members rfl (starts_fields hinner _)
        (members_spelled (f :: fs) (List.cons_ne_nil _ _) hinner (by omega : _ < fuel) rest)
      rw [Fields.ofList_of_nodup hnodup] at hvalue
      rw [List.cons_append, List.append_assoc, List.singleton_append]
      exact hvalue

theorem items_spelled : (vs : List Value) → vs ≠ [] → {s : List Char} → SpellsItems vs s →
    {fuel : Nat} → s.length + 1 < fuel → (rest : List Char) →
    items fuel (skipSpace (s ++ ']' :: rest)) = some (vs, rest)
  | [v], _, s, h, fuel, hfuel, rest => by
      obtain ⟨fuel, rfl⟩ : ∃ k, fuel = k + 1 := ⟨fuel - 1, by omega⟩
      obtain ⟨text, after, hstart, htext, hafter, hle⟩ :=
        Padded.skipSpace h (fun _ ↦ spells_starts) (']' :: rest)
      have hread := value_spelled v htext (by omega : _ < fuel)
        (ends_append hafter (ends_cons (.inr (.inl rfl)) rest))
      rw [hstart]
      exact items_last hread (skipSpace_end hafter (by decide) rest)
  | v :: w :: more, _, s, h, fuel, hfuel, rest => by
      obtain ⟨fuel, rfl⟩ : ∃ k, fuel = k + 1 := ⟨fuel - 1, by omega⟩
      obtain ⟨first, others, rfl, hfirst, hothers⟩ := h
      rw [List.length_append, List.length_cons] at hfuel
      rw [List.append_assoc, List.cons_append]
      obtain ⟨text, after, hstart, htext, hafter, hle⟩ :=
        hfirst.skipSpace (fun _ ↦ spells_starts) (',' :: (others ++ ']' :: rest))
      have hread := value_spelled v htext (by omega : _ < fuel)
        (ends_append hafter (ends_cons (.inl rfl) (others ++ ']' :: rest)))
      rw [hstart]
      exact items_cons hread (skipSpace_end hafter (by decide) _) rfl
        (items_spelled (w :: more) (List.cons_ne_nil _ _) hothers (by omega) rest)

theorem members_spelled : (fs : List (String × Value)) → fs ≠ [] → {s : List Char} →
    SpellsFields fs s → {fuel : Nat} → s.length + 1 < fuel → (rest : List Char) →
    members fuel (skipSpace (s ++ '\x7d' :: rest)) = some (fs, rest)
  | [(name, v)], _, s, h, fuel, hfuel, rest => by
      obtain ⟨fuel, rfl⟩ : ∃ k, fuel = k + 1 := ⟨fuel - 1, by omega⟩
      obtain ⟨named, valued, rfl, hnamed, hvalued⟩ := h
      rw [List.length_append, List.length_cons] at hfuel
      rw [List.append_assoc, List.cons_append]
      obtain ⟨text, after, hstart, htext, hafter, hle⟩ :=
        hvalued.skipSpace (fun _ ↦ spells_starts) ('\x7d' :: rest)
      have hread := value_spelled v htext (by omega : _ < fuel)
        (ends_append hafter (ends_cons (.inr (.inr rfl)) rest))
      exact members_last (fieldRead_padded hnamed hstart hread).2
        (skipSpace_end hafter (by decide) rest)
  | (name, v) :: g :: more, _, s, h, fuel, hfuel, rest => by
      obtain ⟨fuel, rfl⟩ : ∃ k, fuel = k + 1 := ⟨fuel - 1, by omega⟩
      obtain ⟨named, valued, others, rfl, hnamed, hvalued, hothers⟩ := h
      rw [List.length_append, List.length_cons, List.length_append, List.length_cons] at hfuel
      rw [List.append_assoc, List.cons_append, List.append_assoc, List.cons_append]
      obtain ⟨text, after, hstart, htext, hafter, hle⟩ :=
        hvalued.skipSpace (fun _ ↦ spells_starts) (',' :: (others ++ '\x7d' :: rest))
      have hread := value_spelled v htext (by omega : _ < fuel)
        (ends_append hafter (ends_cons (.inl rfl) (others ++ '\x7d' :: rest)))
      exact members_cons (fieldRead_padded hnamed hstart hread).2
        (skipSpace_end hafter (by decide) _) rfl
        (members_spelled (g :: more) (List.cons_ne_nil _ _) hothers (by omega) rest)

end

/-- A text that the grammar allows for a value, with white space around it, is read as that
value. -/
theorem parse?_spelled {v : Value} {s : List Char} (h : Padded (Spells v) s) :
    parse? s = some v := by
  obtain ⟨text, after, hstart, htext, hafter, hle⟩ :=
    h.skipSpace (fun _ ↦ spells_starts) []
  have hread := value_spelled v htext (by omega : text.length < s.length + 1)
    (ends_append hafter ends_nil)
  rw [List.append_nil] at hstart
  rw [parse?, hstart, hread, List.append_nil]
  simp only [Option.bind_eq_bind, Option.bind_some, skipSpace_spaces hafter, List.isEmpty_nil,
    if_true]

end Values

end SafeMarkdown.Json
