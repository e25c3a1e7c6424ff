import SafeMarkdown.Proofs.Returns
import SafeMarkdown.Storage.Disk

/-!
# Files that are written into a folder

A path stays below a root when it has the root in front and what follows never leads above it. Where
such a path leads to is below the place of the root, as following names only goes up at double dots.

Folders are only made, never removed, so a path that leads somewhere leads there for good. A file
that is put below a folder changes no other file, and the folders that are made for it lie on the
way to it. So files with different names below one folder do not touch each other, as long as no
file goes by the name of a folder.
-/

namespace SafeMarkdown

namespace Path

/-- Whether names never lead above the place so many folders up. -/
def neverClimbs : Nat → List String → Bool
  | _, [] => true
  | depth, name :: rest =>
    if name == above then decide (0 < depth) && neverClimbs (depth - 1) rest
    else neverClimbs (depth + 1) rest

def staysBelow (root p : Path) : Bool :=
  (below? root p).any (neverClimbs 0)

/-- Whether a path leads to a place below a root, when it is followed from the root on. -/
def leadsBelow (root p : Path) : Bool :=
  if p.slashes = 0 then neverClimbs 0 p.names else staysBelow root p

theorem below?_append (root : Path) (names : List String) :
    below? root ⟨root.slashes, root.names ++ names⟩ = some names := by
  rw [below?, beq_self_eq_true, Bool.true_and,
    if_pos (List.isPrefixOf_iff_prefix.mpr (List.prefix_append _ _)), List.drop_left]

theorem below?_eq_some {root p : Path} {names : List String} (h : below? root p = some names) :
    p = ⟨root.slashes, root.names ++ names⟩ := by
  unfold below? at h
  split at h
  · rename_i hboth
    obtain ⟨hslashes, hnames⟩ := Bool.and_eq_true_iff.mp hboth
    obtain ⟨rest, hrest⟩ := List.isPrefixOf_iff_prefix.mp hnames
    rw [← hrest, List.drop_left] at h
    cases h
    rw [hrest, beq_iff_eq.mp hslashes]
  · cases h

theorem staysBelow_join (root q : Path) : staysBelow root (root.join q) = leadsBelow root q := by
  unfold join leadsBelow
  split
  · rw [staysBelow, below?_append, Option.any_some]
  · rfl

theorem neverClimbs_of_not_mem {names : List String} (h : above ∉ names) (depth : Nat) :
    neverClimbs depth names = true := by
  induction names generalizing depth with
  | nil => rfl
  | cons name rest ih =>
      rw [List.mem_cons, not_or] at h
      rw [neverClimbs, if_neg (by simpa using Ne.symm h.1)]
      exact ih h.2 (depth + 1)

end Path

namespace Disk

variable {d : Disk}

theorem follow_append {place spot : Location} {ms ns : List String}
    (h : d.follow place (ms ++ ns) = .ok spot) :
    ∃ mid, d.follow place ms = .ok mid ∧ d.follow mid ns = .ok spot := by
  induction ms generalizing place with
  | nil => exact ⟨place, rfl, h⟩
  | cons name rest ih =>
      rw [List.cons_append, follow] at h
      rw [follow]
      split at h
      · split at h <;> cases h
      · rename_i hfolder
        rw [if_neg hfolder]
        split at h
        · rename_i habove
          rw [if_pos habove]
          split at h
          · cases h
          · rename_i hne
            rw [if_neg hne]
            exact ih h
        · rename_i habove
          rw [if_neg habove]
          exact ih h

/-- Names that never climb lead to places below the one they are followed from. -/
theorem prefix_of_follow {base deep place spot : Location} {names : List String}
    (hplace : place = base ++ deep) (hnames : Path.neverClimbs deep.length names = true)
    (h : d.follow place names = .ok spot) : base <+: spot := by
  -- `deep` is how far below `base` the names have led, and its length is the depth they may climb
  induction names generalizing place deep with
  | nil =>
      cases h
      rw [hplace]
      exact List.prefix_append base deep
  | cons name rest ih =>
      rw [Path.neverClimbs] at hnames
      rw [follow] at h
      split at h
      · split at h <;> cases h
      · split at h
        · rename_i habove
          rw [if_pos habove, Bool.and_eq_true, decide_eq_true_eq] at hnames
          split at h
          · cases h
          · rw [hplace, List.dropLast_append_of_ne_nil (List.length_pos_iff.mp hnames.1)] at h
            refine ih rfl ?_ h
            rw [List.length_dropLast]
            exact hnames.2
        · rename_i habove
          rw [if_neg habove] at hnames
          rw [hplace, List.append_assoc] at h
          refine ih rfl ?_ h
          rwa [List.length_append]

/-- A path that stays below a root leads to a place below that of the root. -/
theorem prefix_of_staysBelow {root p : Path} {place spot : Location}
    (hp : Path.staysBelow root p = true) (hroot : d.locate root = .ok place)
    (h : d.locate p = .ok spot) : place <+: spot := by
  unfold Path.staysBelow at hp
  cases hnames : Path.below? root p with
  | none =>
      rw [hnames] at hp
      cases hp
  | some names =>
      rw [hnames, Option.any_some] at hp
      rw [Path.below?_eq_some hnames] at h
      unfold locate at hroot h
      dsimp only at h
      split at h
      · rename_i hslashes
        rw [if_pos hslashes] at hroot
        obtain ⟨mid, hmid, hat⟩ := follow_append h
        rw [hroot] at hmid
        cases hmid
        have hdepth : Path.neverClimbs ([] : Location).length names = true := hp
        exact prefix_of_follow (List.append_nil place).symm hdepth hat
      · cases h

/-- Whether no file goes by a name of two dots, which stands for the folder above. -/
def Dotless (d : Disk) : Prop :=
  ∀ f ∈ d.files, Path.above ∉ f.1

theorem above_not_mem_follow {place spot : Location} {names : List String}
    (hplace : Path.above ∉ place) (h : d.follow place names = .ok spot) : Path.above ∉ spot := by
  induction names generalizing place with
  | nil =>
      cases h
      exact hplace
  | cons name rest ih =>
      rw [follow] at h
      split at h
      · split at h <;> cases h
      · split at h
        · split at h
          · cases h
          · exact ih (fun hmem ↦ hplace (List.dropLast_subset place hmem)) h
        · rename_i hname
          refine ih ?_ h
          rw [List.mem_append, List.mem_singleton, not_or]
          exact ⟨hplace, fun heq ↦ hname (by rw [heq, beq_self_eq_true])⟩

/-- Writing a file makes none of such a name. -/
theorem Dotless.writeText {after : Disk} {p : Path} {text : String} (hd : d.Dotless)
    (h : d.writeText p text = .ok after) : after.Dotless := by
  obtain ⟨-, -, h⟩ := bind_eq_ok.mp h
  split at h
  · cases h
  · rename_i place hplace
    split at h
    · cases h
    · cases h
      intro f hf
      rcases List.mem_append.mp hf with hf | hf
      · exact hd f (List.mem_filter.mp hf).1
      · rw [List.mem_singleton.mp hf]
        unfold locate at hplace
        split at hplace
        · exact above_not_mem_follow List.not_mem_nil hplace
        · cases hplace

end Disk

end SafeMarkdown

namespace SafeMarkdown

namespace Disk

variable {d d' : Disk}

/-- Whether no folder is lost. -/
def Grows (d d' : Disk) : Prop :=
  ∀ l, d.hasFolder l = true → d'.hasFolder l = true

theorem Grows.refl (d : Disk) : d.Grows d :=
  fun _ h ↦ h

theorem Grows.trans {d'' : Disk} (h : d.Grows d') (h' : d'.Grows d'') : d.Grows d'' :=
  fun l hl ↦ h' l (h l hl)

section Following

variable {place spot : Location} {names : List String}

theorem follow_cons_eq_ok {name : String} (h : d.follow place (name :: names) = .ok spot) :
    d.hasFolder place = true ∧
      ((name = Path.above ∧ place ≠ [] ∧ d.follow place.dropLast names = .ok spot) ∨
        (name ≠ Path.above ∧ d.follow (place ++ [name]) names = .ok spot)) := by
  rw [follow] at h
  split at h
  · split at h <;> cases h
  · rename_i hfolder
    rw [Bool.not_eq_true, Bool.not_eq_false'] at hfolder
    refine ⟨hfolder, ?_⟩
    split at h
    · rename_i habove
      split at h
      · cases h
      · rename_i hne
        rw [List.isEmpty_iff] at hne
        exact .inl ⟨beq_iff_eq.mp habove, hne, h⟩
    · rename_i habove
      exact .inr ⟨fun heq ↦ habove (beq_iff_eq.mpr heq), h⟩

theorem Grows.follow (hgrows : d.Grows d') (h : d.follow place names = .ok spot) :
    d'.follow place names = .ok spot := by
  induction names generalizing place with
  | nil => exact h
  | cons name rest ih =>
      obtain ⟨hfolder, ⟨rfl, hne, h⟩ | ⟨hname, h⟩⟩ := follow_cons_eq_ok h
      · rw [Disk.follow, hgrows place hfolder, Bool.not_true, if_neg Bool.false_ne_true,
          if_pos (beq_self_eq_true _), if_neg (by simpa using hne)]
        exact ih h
      · rw [Disk.follow, hgrows place hfolder, Bool.not_true, if_neg Bool.false_ne_true,
          if_neg (by simpa using hname)]
        exact ih h

theorem Grows.locate {p : Path} (hgrows : d.Grows d') (h : d.locate p = .ok place) :
    d'.locate p = .ok place := by
  unfold Disk.locate at h ⊢
  split at h
  · rename_i hslashes
    rw [if_pos hslashes]
    exact hgrows.follow h
  · cases h

/-- Names without double dots lead straight down. -/
theorem eq_append_of_follow (hnames : Path.above ∉ names) (h : d.follow place names = .ok spot) :
    spot = place ++ names := by
  induction names generalizing place with
  | nil =>
      cases h
      exact (List.append_nil _).symm
  | cons name rest ih =>
      rw [List.mem_cons, not_or] at hnames
      obtain ⟨-, ⟨rfl, -, -⟩ | ⟨-, h⟩⟩ := follow_cons_eq_ok h
      · exact (hnames.1 rfl).elim
      · rw [ih hnames.2 h, List.append_assoc, List.singleton_append]

end Following

section Paths

variable {p : Path} {names : List String} {place spot : Location}

theorem exists_locate_of_append (h : d.locate ⟨p.slashes, p.names ++ names⟩ = .ok spot) :
    ∃ place, d.locate p = .ok place ∧ d.follow place names = .ok spot := by
  unfold locate at h
  dsimp only at h
  split at h
  · rename_i hslashes
    obtain ⟨place, hplace, hspot⟩ := follow_append h
    exact ⟨place, by rw [locate, if_pos hslashes, hplace], hspot⟩
  · cases h

theorem locate_append (hnames : Path.above ∉ names)
    (h : d.locate ⟨p.slashes, p.names ++ names⟩ = .ok spot) :
    ∃ place, d.locate p = .ok place ∧ spot = place ++ names := by
  obtain ⟨place, hplace, hspot⟩ := exists_locate_of_append h
  exact ⟨place, hplace, eq_append_of_follow hnames hspot⟩

theorem hasFolder_of_append (hne : names ≠ [])
    (h : d.locate ⟨p.slashes, p.names ++ names⟩ = .ok spot) (hplace : d.locate p = .ok place) :
    d.hasFolder place = true := by
  obtain ⟨mid, hmid, hspot⟩ := exists_locate_of_append h
  rw [hplace] at hmid
  cases hmid
  cases names with
  | nil => exact (hne rfl).elim
  | cons name rest => exact (follow_cons_eq_ok hspot).1

/-- A path that leads to a folder leads through folders only. -/
theorem exists_folder_of_prefix {ns : List String} (hns : ns <+: p.names)
    (hplace : d.locate p = .ok place) (hfolder : d.hasFolder place = true) :
    ∃ mid, d.locate ⟨p.slashes, ns⟩ = .ok mid ∧ d.hasFolder mid = true := by
  obtain ⟨slashes, names⟩ := p
  obtain ⟨rest, rfl⟩ := hns
  obtain ⟨mid, hmid, hspot⟩ := exists_locate_of_append (p := ⟨slashes, ns⟩) hplace
  refine ⟨mid, hmid, ?_⟩
  cases rest with
  | nil =>
      cases hspot
      exact hfolder
  | cons name rest => exact (follow_cons_eq_ok hspot).1

end Paths

section MakingFolders

theorem hasFolder_putFolder (d : Disk) (place l : Location) :
    (d.putFolder place).hasFolder l = true ↔ d.hasFolder l = true ∨ l = place := by
  unfold putFolder
  split
  · rename_i hfolder
    constructor
    · exact .inl
    · rintro (h | rfl)
      · exact h
      · exact hfolder
  · unfold hasFolder
    dsimp only
    rw [Bool.or_eq_true, Bool.or_eq_true, List.contains_iff_mem, List.contains_iff_mem,
      List.mem_append, List.mem_singleton, or_assoc]

theorem files_putFolder (d : Disk) (place : Location) : (d.putFolder place).files = d.files := by
  unfold putFolder
  split <;> rfl

/-- What making folders on the way to a path changes. -/
structure Paved (p : Path) (d d' : Disk) : Prop where
  files : d'.files = d.files
  grows : d.Grows d'
  made : ∀ l, d'.hasFolder l = true →
    d.hasFolder l = true ∨ ∃ ns, ns <+: p.names ∧ d'.locate ⟨p.slashes, ns⟩ = .ok l
  there : ∃ place, d'.locate p = .ok place ∧ d'.hasFolder place = true

theorem paved_makeFolder {p : Path} (h : d.makeFolder p = .ok d') : Paved p d d' := by
  obtain ⟨place, hplace, rfl⟩ : ∃ place, d.locate p = .ok place ∧ d' = d.putFolder place := by
    unfold makeFolder at h
    split at h
    · cases h
    · rename_i place hplace
      refine ⟨place, hplace, ?_⟩
      split at h
      · rename_i hfolder
        cases h
        rw [putFolder, if_pos hfolder]
      · split at h
        · cases h
        · cases h
          rfl
  have hgrows : d.Grows (d.putFolder place) :=
    fun l hl ↦ (hasFolder_putFolder d place l).mpr (.inl hl)
  have hthere : (d.putFolder place).locate p = .ok place := hgrows.locate hplace
  refine ⟨files_putFolder d place, hgrows, fun l hl ↦ ?_, place, hthere, ?_⟩
  · rcases (hasFolder_putFolder d place l).mp hl with hl | rfl
    · exact .inl hl
    · exact .inr ⟨p.names, List.prefix_refl _, hthere⟩
  · exact (hasFolder_putFolder d place place).mpr (.inr rfl)

theorem Paved.trans {p q : Path} {d'' : Disk} (h : Paved p d d') (h' : Paved q d' d'')
    (hslashes : p.slashes = q.slashes) (hnames : p.names <+: q.names) : Paved q d d'' := by
  refine ⟨h'.files.trans h.files, h.grows.trans h'.grows, fun l hl ↦ ?_, h'.there⟩
  rcases h'.made l hl with hl | hmade
  · rcases h.made l hl with hl | ⟨ns, hns, hlocate⟩
    · exact .inl hl
    · rw [hslashes] at hlocate
      exact .inr ⟨ns, hns.trans hnames, h'.grows.locate hlocate⟩
  · exact .inr hmade

theorem paved_makeFrom {slashes : Nat} {back : List String}
    (h : makeFrom slashes d back = .ok d') : Paved ⟨slashes, back.reverse⟩ d d' := by
  induction back generalizing d' with
  | nil => exact paved_makeFolder h
  | cons name up ih =>
      rw [makeFrom] at h
      split at h
      · obtain ⟨mid, hmid, h⟩ := bind_eq_ok.mp h
        refine (ih hmid).trans (paved_makeFolder h) rfl ?_
        rw [List.reverse_cons]
        exact List.prefix_append _ _
      · exact paved_makeFolder h

theorem paved_makeFolders {p : Path} (h : d.makeFolders p = .ok d') : Paved p d d' := by
  obtain ⟨-, -, h⟩ := bind_eq_ok.mp h
  have hpaved := paved_makeFrom h
  rwa [List.reverse_reverse] at hpaved

end MakingFolders

section Writing

theorem file?_putFile (d : Disk) (place l : Location) (bytes : List UInt8) :
    (d.putFile place bytes).file? l = if l = place then some bytes else d.file? l := by
  unfold putFile file?
  dsimp only
  rw [List.lookup_append]
  split
  · rename_i heq
    rw [heq, List.lookup_eq_none_iff.mpr, Option.none_or, List.lookup_cons, beq_self_eq_true]
    intro f hf
    have hne := (List.mem_filter.mp hf).2
    rw [bne_iff_ne] at hne
    exact bne_iff_ne.mpr (Ne.symm hne)
  · rename_i hne
    have hlast : List.lookup l [(place, bytes)] = none := by
      rw [List.lookup_cons, beq_eq_false_iff_ne.mpr hne]
      rfl
    rw [hlast, Option.or_none]
    induction d.files with
    | nil => rfl
    | cons f fs ih =>
        obtain ⟨at_, content⟩ := f
        rw [List.filter_cons, List.lookup_cons]
        by_cases hat : at_ = place
        · rw [if_neg (by simpa using hat), ih, beq_eq_false_iff_ne.mpr (hat ▸ hne)]
        · rw [if_pos (by simpa using hat), List.lookup_cons, ih]

theorem writeText_eq_ok {p : Path} {text : String} (h : d.writeText p text = .ok d') :
    nameable p = .ok () ∧ ∃ place, d.locate p = .ok place ∧ d.hasFolder place = false ∧
      d' = d.putFile place text.toUTF8.toList := by
  obtain ⟨⟨⟩, hnameable, h⟩ := bind_eq_ok.mp h
  refine ⟨hnameable, ?_⟩
  split at h
  · cases h
  · rename_i place hplace
    refine ⟨place, hplace, ?_⟩
    split at h
    · cases h
    · rename_i hfolder
      cases h
      exact ⟨Bool.not_eq_true _ ▸ hfolder, rfl⟩

theorem readBytes_eq_ok_iff {p : Path} {bytes : List UInt8} :
    d.readBytes p = .ok bytes ↔ nameable p = .ok () ∧ ∃ place, d.locate p = .ok place ∧
      d.hasFolder place = false ∧ d.file? place = some bytes := by
  constructor
  · intro h
    obtain ⟨⟨⟩, hnameable, h⟩ := bind_eq_ok.mp h
    refine ⟨hnameable, ?_⟩
    cases hplace : d.locate p with
    | error fault =>
        rw [hplace] at h
        cases h
    | ok place =>
        rw [hplace] at h
        dsimp only at h
        cases hfolder : d.hasFolder place with
        | true =>
            rw [hfolder, if_pos rfl] at h
            cases h
        | false =>
            rw [hfolder, if_neg Bool.false_ne_true] at h
            refine ⟨place, rfl, hfolder, ?_⟩
            cases hfile : d.file? place with
            | some found =>
                rw [hfile] at h
                cases h
                rfl
            | none =>
                rw [hfile] at h
                cases h
  · rintro ⟨hnameable, place, hplace, hfolder, hfile⟩
    refine bind_eq_ok.mpr ⟨(), hnameable, ?_⟩
    rw [hplace]
    dsimp only
    rw [hfolder, hfile]
    rfl

end Writing

end Disk

end SafeMarkdown
