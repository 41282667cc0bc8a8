import Mathlib.Data.List.DropRight
import Mathlib.Data.List.TakeWhile

/-!
# The sections of the news

`get_version` and `news_text` of `helpers/turris-version.sh` are two `awk` programs
over the file `NEWS`, in which each version is a line with dashes below it and notes
below the dashes. The first program looks for dashes with a line above them, the
second one for any dashes, and it holds every line back until it has seen the next one.
-/

namespace TurrisBuild.News

abbrev Line := List Char

/-- `/^-+$/` -/
def isDashes (line : Line) : Bool := !line.isEmpty && line.all (· == '-')

/-- What `awk` makes of a variable with a line in a condition: an empty line is false, and
so is a line that reads as the number zero. -/
structure Awk where
  isTrue : Line → Bool
  isTrue_nil : isTrue [] = false
  isTrue_of_noDigit : ∀ line, line ≠ [] → (∀ c ∈ line, c.isDigit = false) → isTrue line = true

/-- `get_version` from a record on. It prints a line when it comes to dashes, whose number
is given with it. -/
def getVersionFrom (awk : Awk) (prev : Line) (nr : ℕ) : List Line → Option (ℕ × Line)
  | [] => none
  | line :: lines =>
    if awk.isTrue prev && isDashes line then some (nr, prev)
    else getVersionFrom awk line (nr + 1) lines

/-- `get_version` -/
def getVersion (awk : Awk) (lines : List Line) : Option (ℕ × Line) :=
  getVersionFrom awk [] 1 lines

/-- The variables `flg` and `prev` of `news_text`. -/
inductive Flag
  | unset
  | one
  | two (nr : ℕ) (prev : Line)

/-- `news_text` from a record on. The lines are printed with their numbers. -/
def newsTextFrom : Flag → ℕ → List Line → List (ℕ × Line)
  | _, _, [] => []
  | .unset, nr, line :: lines =>
    if isDashes line then newsTextFrom .one (nr + 1) lines
    else newsTextFrom .unset (nr + 1) lines
  | .one, nr, line :: lines =>
    if isDashes line then [] else newsTextFrom (.two nr line) (nr + 1) lines
  | .two n prev, nr, line :: lines =>
    if isDashes line then []
    else if prev.isEmpty then newsTextFrom (.two nr line) (nr + 1) lines
    else (n, prev) :: newsTextFrom (.two nr line) (nr + 1) lines

/-- `news_text` -/
def newsText (lines : List Line) : List (ℕ × Line) := newsTextFrom .unset 1 lines

/-- One version of the news. -/
structure Section where
  version : Line
  dashes : Line
  body : List Line
  version_ne : version ≠ []
  dashes_isDashes : isDashes dashes = true
  body_noDashes : ∀ line ∈ body, isDashes line = false

def Section.lines (s : Section) : List Line := s.version :: s.dashes :: s.body

/-- The lines of the file with the newest section first. -/
def sectionLines (first : Section) (rest : List Section) : List Line :=
  first.lines ++ rest.flatMap Section.lines

/-- Version and notes are those of the first section, and the notes are complete. -/
def ReadsFirst (awk : Awk) (first : Section) (rest : List Section) : Prop :=
  (getVersion awk (sectionLines first rest)).map Prod.snd = some first.version ∧
    (newsText (sectionLines first rest)).map Prod.snd = first.body.filter (!·.isEmpty)

/-- The notes come from below the dashes that are under the version. -/
def NotesFollow (awk : Awk) (lines : List Line) : Prop :=
  ∀ nr version, getVersion awk lines = some (nr, version) →
    ∀ note ∈ newsText lines, nr < note.1

/-! ### The lines that are printed -/

/-- Lines that are not empty, with their numbers. -/
def notes (nr : ℕ) : List Line → List (ℕ × Line)
  | [] => []
  | line :: lines =>
    if line.isEmpty then notes (nr + 1) lines else (nr, line) :: notes (nr + 1) lines

/-- The lines up to the next dashes. -/
def block (lines : List Line) : List Line := lines.takeWhile (!isDashes ·)

private theorem map_snd_notes (nr : ℕ) (lines : List Line) :
    (notes nr lines).map Prod.snd = lines.filter (!·.isEmpty) := by
  induction lines generalizing nr with
  | nil => rfl
  | cons line lines ih =>
    rw [notes]
    cases hline : line.isEmpty with
    | true => simp [ih, hline]
    | false => simp [ih, hline]

private theorem lt_of_mem_notes {nr : ℕ} {lines : List Line} {note : ℕ × Line}
    (h : note ∈ notes nr lines) : nr ≤ note.1 ∧ note.1 < nr + lines.length := by
  induction lines generalizing nr with
  | nil => cases h
  | cons line lines ih =>
    rw [notes] at h
    rw [List.length_cons]
    split at h
    · have := ih h
      omega
    · rcases List.mem_cons.mp h with rfl | h
      · exact ⟨le_rfl, by simp only; omega⟩
      · have := ih h
        omega

/-- With a line held back, it and the lines up to the next dashes are printed, but not the
last one of them. -/
private theorem newsTextFrom_two (nr : ℕ) (prev : Line) (lines : List Line) :
    newsTextFrom (.two nr prev) (nr + 1) lines = notes nr (prev :: block lines).dropLast := by
  induction lines generalizing nr prev with
  | nil => rfl
  | cons line lines ih =>
    rw [newsTextFrom, block, List.takeWhile_cons]
    cases hdashes : isDashes line with
    | true => rfl
    | false =>
      simp only [Bool.false_eq_true, if_false, Bool.not_false, if_true]
      rw [ih (nr + 1) line, List.dropLast_cons_cons, notes]
      rfl

private theorem newsTextFrom_one (nr : ℕ) (lines : List Line) :
    newsTextFrom .one nr lines = notes nr (block lines).dropLast := by
  cases lines with
  | nil => rfl
  | cons line lines =>
    rw [newsTextFrom, block, List.takeWhile_cons]
    cases hdashes : isDashes line with
    | true => rfl
    | false => exact newsTextFrom_two nr line lines

/-- `news_text` prints what is between the first dashes and the next ones, but for the last
line there. -/
theorem newsText_eq {before : List Line} (hbefore : ∀ line ∈ before, isDashes line = false)
    {dashes : Line} (hdashes : isDashes dashes = true) (after : List Line) :
    newsText (before ++ dashes :: after) = notes (before.length + 2) (block after).dropLast := by
  have hfrom : ∀ nr, newsTextFrom .unset nr (before ++ dashes :: after) =
      notes (nr + before.length + 1) (block after).dropLast := by
    induction before with
    | nil =>
      intro nr
      rw [List.nil_append, newsTextFrom, if_pos hdashes]
      exact newsTextFrom_one (nr + 1) after
    | cons line before ih =>
      intro nr
      obtain ⟨hline, hbefore⟩ := List.forall_mem_cons.mp hbefore
      rw [List.cons_append, newsTextFrom, if_neg (Bool.eq_false_iff.mp hline)]
      rw [ih hbefore (nr + 1), List.length_cons]
      congr 1
      omega
  rw [newsText, hfrom 1]
  congr 1
  omega

variable {awk : Awk}

private theorem isTrue_of_getVersionFrom {prev : Line} {nr : ℕ} {lines : List Line}
    {found : ℕ × Line}
    (h : getVersionFrom awk prev nr lines = some found) : awk.isTrue found.2 = true := by
  induction lines generalizing prev nr with
  | nil => cases h
  | cons line lines ih =>
    rw [getVersionFrom] at h
    split at h
    · next htest =>
      obtain rfl := Option.some.inj h
      exact (Bool.and_eq_true_iff.mp htest).1
    · exact ih h

/-- `get_version` stops at dashes, so not before the first ones. -/
theorem le_of_getVersionFrom {prev : Line} {nr : ℕ} {lines : List Line} {found : ℕ × Line}
    (h : getVersionFrom awk prev nr lines = some found) : nr + (block lines).length ≤ found.1 := by
  induction lines generalizing prev nr with
  | nil => cases h
  | cons line lines ih =>
    rw [getVersionFrom] at h
    rw [block, List.takeWhile_cons]
    split at h
    · next htest =>
      obtain rfl := Option.some.inj h
      rw [(Bool.and_eq_true_iff.mp htest).2]
      exact le_rfl
    · have hle := ih h
      split
      · rw [List.length_cons]
        exact le_trans (by rw [block]; omega) hle
      · exact le_trans (by rw [List.length_nil]; omega) hle

/-- Some line that counts has dashes below it. -/
def HasVersion (awk : Awk) (lines : List Line) : Prop :=
  ∃ before version dashes after, lines = before ++ version :: dashes :: after ∧
    isDashes dashes = true ∧ awk.isTrue version = true

private theorem isSome_getVersionFrom {prev : Line} {nr : ℕ} {lines : List Line} :
    (getVersionFrom awk prev nr lines).isSome = true ↔ HasVersion awk (prev :: lines) := by
  induction lines generalizing prev nr with
  | nil =>
    refine iff_of_false (by simp [getVersionFrom]) ?_
    rintro ⟨before, version, dashes, after, heq, -⟩
    have hlength := congrArg List.length heq
    simp only [List.length_cons, List.length_nil, List.length_append] at hlength
    omega
  | cons line lines ih =>
    rw [getVersionFrom]
    split
    · next htest =>
      rw [Bool.and_eq_true_iff] at htest
      exact iff_of_true rfl ⟨[], prev, line, lines, rfl, htest.2, htest.1⟩
    · next htest =>
      rw [ih]
      constructor
      · rintro ⟨before, version, dashes, after, heq, hdashes, htrue⟩
        exact ⟨prev :: before, version, dashes, after, by rw [heq]; rfl, hdashes, htrue⟩
      · rintro ⟨before, version, dashes, after, heq, hdashes, htrue⟩
        cases before with
        | nil =>
          obtain ⟨rfl, hrest⟩ := List.cons.inj heq
          obtain ⟨rfl, rfl⟩ := List.cons.inj hrest
          exact absurd (Bool.and_eq_true_iff.mpr ⟨htrue, hdashes⟩) htest
        | cons line' before =>
          exact ⟨before, version, dashes, after, (List.cons.inj heq).2, hdashes, htrue⟩

/-- An empty line before the text changes nothing. -/
theorem isSome_getVersion {lines : List Line} :
    (getVersion awk lines).isSome = true ↔ HasVersion awk lines := by
  rw [getVersion, isSome_getVersionFrom]
  constructor
  · rintro ⟨before, version, dashes, after, heq, hdashes, htrue⟩
    cases before with
    | nil =>
      rw [← (List.cons.inj heq).1, awk.isTrue_nil] at htrue
      cases htrue
    | cons line before =>
      exact ⟨before, version, dashes, after, (List.cons.inj heq).2, hdashes, htrue⟩
  · rintro ⟨before, version, dashes, after, heq, hdashes, htrue⟩
    exact ⟨[] :: before, version, dashes, after, by rw [heq]; rfl, hdashes, htrue⟩

/-- `get_version` at the first dashes. -/
theorem getVersion_eq {before : List Line} (hbefore : ∀ line ∈ before, isDashes line = false)
    {dashes : Line} (hdashes : isDashes dashes = true) (after : List Line) :
    getVersion awk (before ++ dashes :: after) =
      if awk.isTrue (before.getLast?.getD []) then
        some (before.length + 1, before.getLast?.getD [])
      else getVersionFrom awk dashes (before.length + 2) after := by
  have hfrom : ∀ prev nr, getVersionFrom awk prev nr (before ++ dashes :: after) =
      if awk.isTrue (before.getLast?.getD prev) then
        some (nr + before.length, before.getLast?.getD prev)
      else getVersionFrom awk dashes (nr + before.length + 1) after := by
    induction before with
    | nil =>
      intro prev nr
      rw [List.nil_append, getVersionFrom, hdashes, Bool.and_true]
      rfl
    | cons line before ih =>
      intro prev nr
      obtain ⟨hline, hbefore⟩ := List.forall_mem_cons.mp hbefore
      rw [List.cons_append, getVersionFrom, hline, Bool.and_false, if_neg Bool.false_ne_true,
        ih hbefore line (nr + 1), List.getLast?_cons, Option.getD_some, List.length_cons,
        Nat.add_right_comm nr 1, Nat.add_assoc nr]
  rw [getVersion, hfrom [] 1, Nat.add_comm 1]

/-! ### When the notes are those of the version -/

/-- The version counts as true, and the last line of the notes is not lost: there is a next
version to be held back in its place, or the line is empty. A version of dashes only
has no notes. -/
def CompleteFirst (awk : Awk) (first : Section) (rest : List Section) : Prop :=
  awk.isTrue first.version = true ∧
    if isDashes first.version then ∀ line ∈ first.body, line = []
    else (∃ next later, rest = next :: later ∧ isDashes next.version = false) ∨
      first.body.getLast?.getD [] = []

/-- The first dashes have a line that counts above them, or nothing is printed from below
them, or there is no version at all. -/
def FirstDashesHeaded (awk : Awk) (lines : List Line) : Prop :=
  ∀ before dashes after, lines = before ++ dashes :: after →
    (∀ line ∈ before, isDashes line = false) → isDashes dashes = true →
      awk.isTrue (before.getLast?.getD []) = true ∨
      (∀ line ∈ (block after).dropLast, line = []) ∨ ¬HasVersion awk lines

private theorem notes_eq_nil_iff {nr : ℕ} {lines : List Line} :
    notes nr lines = [] ↔ ∀ line ∈ lines, line = [] := by
  rw [← List.map_eq_nil_iff (f := Prod.snd), map_snd_notes, List.filter_eq_nil_iff]
  simp

private theorem exists_first_dashes (lines : List Line) :
    (∀ line ∈ lines, isDashes line = false) ∨
      ∃ before dashes after, lines = before ++ dashes :: after ∧
        (∀ line ∈ before, isDashes line = false) ∧ isDashes dashes = true := by
  induction lines with
  | nil => exact .inl (by simp)
  | cons line lines ih =>
    cases hline : isDashes line with
    | true => exact .inr ⟨[], line, lines, rfl, by simp, hline⟩
    | false =>
      rcases ih with hnone | ⟨before, dashes, after, rfl, hbefore, hdashes⟩
      · exact .inl (List.forall_mem_cons.mpr ⟨hline, hnone⟩)
      · exact .inr ⟨line :: before, dashes, after, rfl,
          List.forall_mem_cons.mpr ⟨hline, hbefore⟩, hdashes⟩

private theorem notesFollow_iff (lines : List Line) :
    NotesFollow awk lines ↔ FirstDashesHeaded awk lines := by
  constructor
  · rintro hfollow before dashes after rfl hbefore hdashes
    by_contra hnot
    obtain ⟨hfalse, hprinted, hversion⟩ := not_or.mp hnot |>.imp_right not_or.mp
    have hne : notes (before.length + 2) (block after).dropLast ≠ [] :=
      mt notes_eq_nil_iff.mp hprinted
    obtain ⟨note, hnote⟩ := List.exists_mem_of_ne_nil _ hne
    obtain ⟨found, hfound⟩ := Option.isSome_iff_exists.mp
      (isSome_getVersion.mpr (not_not.mp hversion))
    have hlt := hfollow found.1 found.2 hfound note (by rwa [newsText_eq hbefore hdashes])
    rw [getVersion_eq hbefore hdashes, if_neg hfalse] at hfound
    -- The notes end before the next dashes, and the version is not found before these.
    have hle := le_of_getVersionFrom hfound
    have hnumber := (lt_of_mem_notes hnote).2
    rw [List.length_dropLast] at hnumber
    omega
  · intro hheaded nr version hversion note hnote
    rcases exists_first_dashes lines with hnone | ⟨before, dashes, after, rfl, hbefore, hdashes⟩
    · obtain ⟨before, version, dashes, after, heq, hdashes, -⟩ :=
        isSome_getVersion.mp (Option.isSome_of_eq_some hversion)
      rw [hnone dashes (by simp [heq])] at hdashes
      cases hdashes
    · rw [newsText_eq hbefore hdashes] at hnote
      rcases hheaded before dashes after rfl hbefore hdashes with htrue | hempty | hno
      · rw [getVersion_eq hbefore hdashes, if_pos htrue] at hversion
        obtain ⟨rfl, -⟩ := Prod.mk.inj (Option.some.inj hversion)
        have hnumber := (lt_of_mem_notes hnote).1
        omega
      · rw [notes_eq_nil_iff.mpr hempty] at hnote
        cases hnote
      · exact absurd (isSome_getVersion.mp (Option.isSome_of_eq_some hversion)) hno

section First

variable {first : Section} {rest : List Section}

private theorem version_eq_iff :
    (getVersion awk (sectionLines first rest)).map Prod.snd = some first.version ↔
      awk.isTrue first.version = true := by
  rw [sectionLines, Section.lines, List.cons_append, List.cons_append, getVersion, getVersionFrom,
    awk.isTrue_nil, Bool.false_and, if_neg Bool.false_ne_true, getVersionFrom,
    first.dashes_isDashes, Bool.and_true]
  split
  · next htrue => exact iff_of_true rfl htrue
  · next hfalse =>
    refine iff_of_false (fun h => ?_) hfalse
    obtain ⟨found, hfound, heq⟩ := Option.map_eq_some_iff.mp h
    rw [← heq] at hfalse
    exact hfalse (isTrue_of_getVersionFrom hfound)

private theorem filter_dropLast_iff (lines : List Line) :
    lines.dropLast.filter (!·.isEmpty) = lines.filter (!·.isEmpty) ↔
      lines.getLast?.getD [] = [] := by
  rcases lines.eq_nil_or_concat' with rfl | ⟨init, last, rfl⟩
  · exact iff_of_true rfl rfl
  · rw [List.dropLast_concat, List.filter_append, List.self_eq_append_right, List.getLast?_concat,
      Option.getD_some, List.filter_eq_nil_iff]
    simp

/-- The lines behind the first section up to the next dashes: the version of the next one. -/
private theorem block_rest :
    block (rest.flatMap Section.lines) = match rest with
      | [] => []
      | next :: _ => if isDashes next.version then [] else [next.version] := by
  cases rest with
  | nil => rfl
  | cons next later =>
    rw [List.flatMap_cons, Section.lines, List.cons_append, List.cons_append, block,
      List.takeWhile_cons]
    cases hversion : isDashes next.version with
    | true => simp [hversion]
    | false =>
      rw [List.takeWhile_cons, next.dashes_isDashes]
      simp [hversion]

private theorem block_body (lines : List Line) :
    block (first.body ++ lines) = first.body ++ block lines :=
  List.takeWhile_append_of_pos fun line hline => by rw [first.body_noDashes line hline]; rfl

private theorem notes_eq_iff :
    (newsText (sectionLines first rest)).map Prod.snd = first.body.filter (!·.isEmpty) ↔
      if isDashes first.version then ∀ line ∈ first.body, line = []
      else (∃ next later, rest = next :: later ∧ isDashes next.version = false) ∨
        first.body.getLast?.getD [] = [] := by
  have htext : sectionLines first rest =
      first.version :: first.dashes :: (first.body ++ rest.flatMap Section.lines) := rfl
  cases hversion : isDashes first.version with
  | true =>
    have hprinted : newsText (sectionLines first rest) = [] := by
      rw [htext, ← List.nil_append (first.version :: _), newsText_eq (by simp) hversion, block,
        List.takeWhile_cons, first.dashes_isDashes]
      rfl
    rw [hprinted, if_pos rfl, List.map_nil, eq_comm, List.filter_eq_nil_iff]
    simp
  | false =>
    have hbefore : ∀ line ∈ [first.version], isDashes line = false := by
      intro line hline
      rwa [List.mem_singleton.mp hline]
    have hprinted : (newsText (sectionLines first rest)).map Prod.snd =
        (first.body ++ block (rest.flatMap Section.lines)).dropLast.filter (!·.isEmpty) := by
      rw [htext, ← List.singleton_append, newsText_eq hbefore first.dashes_isDashes, map_snd_notes,
        block_body]
    rw [hprinted, if_neg Bool.false_ne_true, block_rest]
    -- Without another version it is the last line of the notes that is held back.
    match rest with
    | [] => simpa using filter_dropLast_iff first.body
    | next :: later =>
      cases hnext : isDashes next.version with
      | true => simpa [hnext] using filter_dropLast_iff first.body
      | false => simp [hnext]

private theorem readsFirst_iff : ReadsFirst awk first rest ↔ CompleteFirst awk first rest :=
  and_congr version_eq_iff notes_eq_iff

end First

/-- **Version and notes come from one complete section.** For news in sections, both are
those of the first one exactly when its version does not read as zero and no line of its
notes is held back at the end. For any text, the notes are from below the version that is
printed exactly when the first dashes have a line above them, or nothing is printed. -/
theorem news_of_version_iff (awk : Awk) :
    (∀ first rest, ReadsFirst awk first rest ↔ CompleteFirst awk first rest) ∧
      ∀ lines, NotesFollow awk lines ↔ FirstDashesHeaded awk lines :=
  ⟨fun _ _ => readsFirst_iff, notesFollow_iff⟩

/-- An `awk` to which only lines of zeros are false. -/
private def zeroAwk : Awk where
  isTrue := fun line => line.any (· != '0')
  isTrue_nil := rfl
  isTrue_of_noDigit := by
    intro line hne hdigit
    obtain ⟨c, hc⟩ := List.exists_mem_of_ne_nil line hne
    refine List.any_eq_true.mpr ⟨c, hc, bne_iff_ne.mpr ?_⟩
    rintro rfl
    exact absurd (hdigit '0' hc) (by decide)

/-- The only section of a file. -/
private def onlySection : Section where
  version := "4.0".toList
  dashes := "---".toList
  body := ["* Rebased".toList, "* Migrated".toList]
  version_ne := by decide
  dashes_isDashes := by decide
  body_noDashes := by decide

/-- The last line of the notes is not printed, and neither are the notes of the version
that is found when the first dashes have nothing above them. -/
theorem last_note_lost :
    ((newsText (sectionLines onlySection [])).map Prod.snd = ["* Rebased".toList] ∧
      ¬ReadsFirst zeroAwk onlySection []) ∧
    (getVersion zeroAwk
        ["--".toList, "old".toList, "4.0".toList, "--".toList, "new".toList] =
      some (4, "4.0".toList) ∧
    newsText ["--".toList, "old".toList, "4.0".toList, "--".toList, "new".toList] =
      [(2, "old".toList)] ∧
    ¬NotesFollow zeroAwk
        ["--".toList, "old".toList, "4.0".toList, "--".toList, "new".toList]) := by
  refine ⟨⟨by decide, fun h => absurd h.2 (by decide)⟩, by decide, by decide, fun h => ?_⟩
  exact absurd (h 4 "4.0".toList (by decide) (2, "old".toList) (by decide)) (by decide)

end TurrisBuild.News
