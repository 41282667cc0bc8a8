import Mathlib.Data.Bool.AllAny
import Mathlib.Data.List.TakeWhile
import TurrisBuild.Lib.Pattern

/-!
# The merge loop of `configure`

The option lines of all configuration files are read one after another. Each of
them deletes the earlier lines of its name from `.config` and is appended. The
name is part of a `sed` pattern there, and `read` splits the line at `=` signs.
-/

namespace TurrisBuild.Configure

/-- A line of a configuration file, without its newline. -/
abbrev Line := List Char

/-- `grep "^CONFIG.*="` -/
def isOption (line : Line) : Bool :=
  ['C', 'O', 'N', 'F', 'I', 'G'].isPrefixOf line && (line.drop 6).contains '='

/-- The text before the first `=`. -/
def optionName (line : Line) : List Char := line.takeWhile (· != '=')

/-- The text behind the first `=`. -/
def optionValue (line : Line) : List Char := (line.dropWhile (· != '=')).drop 1

/-- The variables `name` and `value` of the loops. -/
structure Setting where
  name : List Char
  value : List Char
  deriving DecidableEq

/-- The only `=` of the text is its last character. -/
def EndsInLoneEquals (text : List Char) : Prop :=
  text.getLast? = some '=' ∧ '=' ∉ text.dropLast

instance (text : List Char) : Decidable (EndsInLoneEquals text) :=
  inferInstanceAs (Decidable (_ ∧ _))

/-- `IFS="=" read -r name value`. The value is all that follows the first `=`,
but a last `=` that ends a single field counts as its delimiter. -/
def readSetting (line : Line) : Setting where
  name := optionName line
  value := if EndsInLoneEquals (optionValue line) then (optionValue line).dropLast
    else optionValue line

/-- `echo "$name=$value"` -/
def Setting.line (s : Setting) : Line := s.name ++ '=' :: s.value

section Loop

variable (sed : Pattern.Engine)

/-- One iteration of the loop. There is no `.config` before the first one. When
`sed` refuses the pattern, the file is not replaced. -/
def mergeStep (conf : Option (List Line)) (s : Setting) : Option (List Line) :=
  match conf with
  | none => some [s.line]
  | some lines =>
    some (lines.filter (fun line => !sed.selects ('^' :: (s.name ++ ['='])) line) ++ [s.line])

/-- The option lines of the files, in the order of `cat`. -/
def options (files : List (List Line)) : List Line := files.flatten.filter isOption

/-- The `.config` that the loop leaves. -/
def merge (files : List (List Line)) : Option (List Line) :=
  ((options files).map readSetting).foldl (mergeStep sed) none

end Loop

/-! ### What the merge is for -/

/-- The lines that no later line of the same name replaces, in their order. -/
def lastWins : List Line → List Line
  | [] => []
  | line :: lines =>
    if optionName line ∈ lines.map optionName then lastWins lines else line :: lastWins lines

/-- Each name that occurs keeps one line, its last one. -/
theorem filter_lastWins (name : List Char) (lines : List Line) :
    (lastWins lines).filter (optionName · = name) =
      (lines.filter (optionName · = name)).getLast?.toList := by
  induction lines with
  | nil => rfl
  | cons line lines ih =>
    by_cases hlater : optionName line ∈ lines.map optionName
    · obtain ⟨later, hmem, hname⟩ := List.mem_map.mp hlater
      rw [lastWins, if_pos hlater, ih]
      by_cases hline : optionName line = name
      · have hne : lines.filter (optionName · = name) ≠ [] :=
          List.ne_nil_of_mem (List.mem_filter.mpr ⟨hmem, by simp [hname, hline]⟩)
        simp [hline, List.getLast?_cons_of_ne_nil hne]
      · simp [hline]
    · rw [lastWins, if_neg hlater]
      by_cases hline : optionName line = name
      · have hnil : lines.filter (optionName · = name) = [] := by
          refine List.filter_eq_nil_iff.mpr fun l hl => ?_
          have hne : optionName l ≠ name := fun h =>
            hlater (List.mem_map.mpr ⟨l, hl, h.trans hline.symm⟩)
          simpa using hne
        simp [hline, ih, hnil]
      · simp [hline, ih]

/-! ### What the loop does -/

section Loop

variable {sed : Pattern.Engine}

/-- The later line deletes the earlier one from the file. -/
def deletes (sed : Pattern.Engine) (later earlier : Line) : Bool :=
  sed.selects ('^' :: (optionName later ++ ['='])) earlier

/-- The lines the loop writes and does not delete again. -/
def kept (sed : Pattern.Engine) : List Line → List Line
  | [] => []
  | line :: lines =>
    if lines.any (deletes sed · (readSetting line).line) then kept sed lines
    else (readSetting line).line :: kept sed lines

private theorem foldl_mergeStep (lines conf : List Line) :
    (lines.map readSetting).foldl (mergeStep sed) (some conf) =
      some (conf.filter (fun line => !lines.any (deletes sed · line)) ++ kept sed lines) := by
  induction lines generalizing conf with
  | nil => simp [kept]
  | cons line lines ih =>
    simp only [List.map_cons, List.foldl_cons, mergeStep, ih, List.filter_append,
      List.filter_filter, List.append_assoc, Option.some.injEq]
    congr 1
    · refine List.filter_congr fun earlier _ => ?_
      simp [deletes, readSetting, Bool.and_comm]
    · by_cases hany : lines.any (deletes sed · (readSetting line).line) <;> simp [kept, hany]

/-- The loop leaves the lines that are not deleted. -/
theorem merge_eq_kept (files : List (List Line)) :
    (merge sed files).getD [] = kept sed (options files) := by
  unfold merge
  cases options files with
  | nil => rfl
  | cons line lines =>
    have hfirst (s : Setting) : mergeStep sed none s = mergeStep sed (some []) s := by
      simp [mergeStep]
    rw [List.map_cons, List.foldl_cons, hfirst, ← List.foldl_cons, ← List.map_cons,
      foldl_mergeStep]
    simp

private theorem equals_mem_of_isOption {line : Line} (hline : isOption line) : '=' ∈ line := by
  simp only [isOption, Bool.and_eq_true, List.contains_iff_mem] at hline
  exact List.mem_of_mem_drop hline.2

private theorem name_equals_value {line : Line} (hline : '=' ∈ line) :
    optionName line ++ '=' :: optionValue line = line := by
  induction line with
  | nil => simp at hline
  | cons c line ih =>
    by_cases hc : c = '='
    · simp [optionName, optionValue, hc]
    · have hmem : '=' ∈ line := by
        rcases List.mem_cons.mp hline with h | h
        · exact absurd h.symm hc
        · exact h
      simpa [optionName, optionValue, hc] using ih hmem

/-- The loop writes a line as it read it unless `read` drops a last `=`. -/
theorem readSetting_line_eq_iff {line : Line} (hline : '=' ∈ line) :
    (readSetting line).line = line ↔ ¬ EndsInLoneEquals (optionValue line) := by
  by_cases hlone : EndsInLoneEquals (optionValue line)
  · refine iff_of_false (fun heq => ?_) (not_not.mpr hlone)
    have hne : optionValue line ≠ [] := fun h => by simp [EndsInLoneEquals, h] at hlone
    have hlen := congrArg List.length (heq.trans (name_equals_value hline).symm)
    have hpos := List.length_pos_of_ne_nil hne
    simp [Setting.line, readSetting, hlone] at hlen
    omega
  · simp [Setting.line, readSetting, hlone, name_equals_value hline]

private theorem equals_notMem_name (line : Line) : '=' ∉ optionName line := by
  intro h
  have hne := List.mem_takeWhile_imp h
  simp at hne

private theorem not_endsInLoneEquals_value (line : Line) :
    ¬ EndsInLoneEquals (readSetting line).value := by
  by_cases hlone : EndsInLoneEquals (optionValue line)
  · rintro ⟨hlast, -⟩
    simp only [readSetting, if_pos hlone] at hlast
    exact hlone.2 (List.mem_of_getLast? hlast)
  · simpa only [readSetting, if_neg hlone] using hlone

/-- A line the loop wrote is split at its first `=` when it is read again. -/
theorem readSetting_written (line : Line) :
    readSetting (readSetting line).line =
      ⟨optionName (readSetting line).line, optionValue (readSetting line).line⟩ := by
  have hname := equals_notMem_name line
  have hvalue : optionValue (readSetting line).line = (readSetting line).value := by
    have hpos : ∀ c ∈ optionName line, (c != '=') = true := fun c hc => by
      have : c ≠ '=' := fun h => hname (h ▸ hc)
      simpa using this
    simp [optionValue, Setting.line, readSetting, List.dropWhile_append_of_pos hpos]
  have hlone := not_endsInLoneEquals_value line
  rw [← hvalue] at hlone
  exact congrArg _ (if_neg hlone)

/-- Every line of `.config` was written by the loop. -/
theorem written_of_merge {files : List (List Line)} {gen : List Line}
    (hgen : merge sed files = some gen) {line : Line} (hline : line ∈ gen) :
    ∃ option, line = (readSetting option).line := by
  have hkept : gen = kept sed (options files) := by rw [← merge_eq_kept, hgen]; rfl
  rw [hkept] at hline
  generalize options files = lines at hline
  induction lines with
  | nil => simp [kept] at hline
  | cons option lines ih =>
    rw [kept] at hline
    split at hline
    · exact ih hline
    · rcases List.mem_cons.mp hline with h | h
      · exact ⟨option, h⟩
      · exact ih h

end Loop

/-! ### When the last occurrence wins -/

/-- The characters of the symbol names of OpenWrt. -/
def isNameChar (c : Char) : Bool := c.isAlphanum || ['_', '-', '+', '.'].contains c

/-- Neither `read` nor a later line of another name touches a line that is the
last of its name: the line does not end in a lone `=`, and it does not begin like
the name of a later line and an `=`. -/
def Undisturbed (options : List Line) : Prop :=
  ∀ line later, line :: later <:+ options → optionName line ∉ later.map optionName →
    ¬ EndsInLoneEquals (optionValue line) ∧
      ∀ other ∈ later, Pattern.beginsLike (optionName other ++ ['=']) line = false

private theorem undisturbed_cons (line : Line) (lines : List Line) :
    Undisturbed (line :: lines) ↔
      (optionName line ∉ lines.map optionName → ¬ EndsInLoneEquals (optionValue line) ∧
        ∀ other ∈ lines, Pattern.beginsLike (optionName other ++ ['=']) line = false) ∧
      Undisturbed lines := by
  constructor
  · intro h
    exact ⟨h line lines (List.suffix_refl _),
      fun l later hsuffix => h l later (hsuffix.trans (List.suffix_cons line lines))⟩
  · rintro ⟨hline, hlines⟩ l later hsuffix
    rcases List.suffix_cons_iff.mp hsuffix with heq | hsuffix
    · obtain ⟨rfl, rfl⟩ := List.cons.inj heq
      exact hline
    · exact hlines l later hsuffix

section Exact

variable {sed : Pattern.Engine} {lines : List Line}

private theorem deletes_eq (hsed : sed.Lawful Pattern.basicOperators) {later : Line}
    (hname : ∀ c ∈ optionName later, isNameChar c) (earlier : Line) :
    deletes sed later earlier = Pattern.beginsLike (optionName later ++ ['=']) earlier := by
  have hops : ∀ c ∈ Pattern.basicOperators, isNameChar c ∨ c = '=' → c = '.' :=
    List.all_iff_forall_prop.mp (by decide)
  have hdots : Pattern.OnlyDots Pattern.basicOperators (optionName later ++ ['=']) := by
    intro c hc hop
    rcases List.mem_append.mp hc with hc | hc
    · exact hops c hop (.inl (hname c hc))
    · exact hops c hop (.inr (List.mem_singleton.mp hc))
  simp [deletes, Pattern.Engine.selects, hsed.begins hdots]

private theorem deletes_of_name_eq (hsed : sed.Lawful Pattern.basicOperators) {later line : Line}
    (hname : ∀ c ∈ optionName later, isNameChar c) (heq : optionName later = optionName line) :
    deletes sed later (readSetting line).line = true := by
  rw [deletes_eq hsed hname, heq]
  refine Pattern.beginsLike_of_prefix ⟨(readSetting line).value, ?_⟩
  simp [Setting.line, readSetting]

private theorem any_deletes_of_mem (hsed : sed.Lawful Pattern.basicOperators) {line : Line}
    (hnames : ∀ l ∈ lines, ∀ c ∈ optionName l, isNameChar c)
    (hmem : optionName line ∈ lines.map optionName) :
    lines.any (deletes sed · (readSetting line).line) = true := by
  obtain ⟨later, hlater, heq⟩ := List.mem_map.mp hmem
  exact List.any_eq_true.mpr
    ⟨later, hlater, deletes_of_name_eq hsed (hnames later hlater) heq⟩

/-- A line that a later one replaces is always deleted. -/
theorem length_kept_le (hsed : sed.Lawful Pattern.basicOperators)
    (hnames : ∀ line ∈ lines, ∀ c ∈ optionName line, isNameChar c) :
    (kept sed lines).length ≤ (lastWins lines).length := by
  induction lines with
  | nil => simp [kept]
  | cons line lines ih =>
    have ih := ih fun l hl => hnames l (List.mem_cons_of_mem _ hl)
    by_cases hmem : optionName line ∈ lines.map optionName
    · have hany := any_deletes_of_mem hsed (fun l hl => hnames l (List.mem_cons_of_mem _ hl)) hmem
      rwa [kept, if_pos hany, lastWins, if_pos hmem]
    · rw [kept, lastWins, if_neg hmem]
      split
      · exact Nat.le_succ_of_le ih
      · exact Nat.succ_le_succ ih

private theorem kept_eq_lastWins_iff (hsed : sed.Lawful Pattern.basicOperators)
    (hequals : ∀ line ∈ lines, '=' ∈ line)
    (hnames : ∀ line ∈ lines, ∀ c ∈ optionName line, isNameChar c) :
    kept sed lines = lastWins lines ↔ Undisturbed lines := by
  induction lines with
  | nil => simp [kept, lastWins, Undisturbed]
  | cons line lines ih =>
    have hnames' : ∀ l ∈ lines, ∀ c ∈ optionName l, isNameChar c :=
      fun l hl => hnames l (List.mem_cons_of_mem _ hl)
    have ih := ih (fun l hl => hequals l (List.mem_cons_of_mem _ hl)) hnames'
    have hread := readSetting_line_eq_iff (hequals line List.mem_cons_self)
    rw [undisturbed_cons]
    by_cases hmem : optionName line ∈ lines.map optionName
    · rw [kept, if_pos (any_deletes_of_mem hsed hnames' hmem), lastWins, if_pos hmem, ih]
      simp [hmem]
    · simp only [hmem, not_false_eq_true, true_imp_iff]
      rw [kept, lastWins, if_neg hmem]
      split
      next hany =>
        -- A line is missing for good: what is kept of the rest is never longer.
        obtain ⟨later, hlater, hdel⟩ := List.any_eq_true.mp hany
        rw [deletes_eq hsed (hnames' later hlater)] at hdel
        refine iff_of_false (fun heq => ?_) fun ⟨⟨hlone, hnone⟩, _⟩ => ?_
        · have hlen := congrArg List.length heq
          have hle := length_kept_le hsed hnames'
          simp only [List.length_cons] at hlen
          omega
        · rw [hread.mpr hlone, hnone later hlater] at hdel
          contradiction
      next hany =>
        have hnone : (readSetting line).line = line →
            ∀ other ∈ lines, Pattern.beginsLike (optionName other ++ ['=']) line = false := by
          intro heq other hother
          rw [← deletes_eq hsed (hnames' other hother)]
          have := List.any_eq_false.mp (by simpa using hany) other hother
          simpa [heq] using this
        rw [List.cons.injEq, ih, ← hread]
        exact and_congr_left fun _ => ⟨fun h => ⟨h, hnone h⟩, fun h => h.1⟩

end Exact

/-- **Last wins.** The loop leaves the last line of every name, in the order of
these lines and nothing else, exactly when the option lines are undisturbed. -/
theorem merge_lastWins_iff {sed : Pattern.Engine} {files : List (List Line)}
    (hsed : sed.Lawful Pattern.basicOperators)
    (hnames : ∀ line ∈ options files, ∀ c ∈ optionName line, isNameChar c) :
    (merge sed files).getD [] = lastWins (options files) ↔ Undisturbed (options files) := by
  rw [merge_eq_kept]
  refine kept_eq_lastWins_iff hsed (fun line hline => ?_) hnames
  exact equals_mem_of_isOption (List.mem_filter.mp hline).2

private theorem forall_isNameChar {files : List (List Line)}
    (h : ((options files).all fun line => (optionName line).all isNameChar) = true) :
    ∀ line ∈ options files, ∀ c ∈ optionName line, isNameChar c := by
  simpa using h

/-- A common file and one of the board that overrides it. -/
def develFiles : List (List Line) :=
  [["CONFIG_DEVEL=y".toList, "# CONFIG_LIBC is not set".toList], ["CONFIG_DEVEL=n".toList]]

/-- The file of the board wins. -/
theorem merge_develFiles :
    (merge Pattern.anchored develFiles).getD [] = lastWins (options develFiles) ∧
      Undisturbed (options develFiles) :=
  ⟨by decide,
    (merge_lastWins_iff (Pattern.anchored_lawful (by decide))
      (forall_isNameChar (by decide))).mp (by decide)⟩

/-- Two packages, one of them with a dot in its name. -/
def dottedFiles : List (List Line) :=
  [["CONFIG_PACKAGE_lib-a=y".toList, "CONFIG_PACKAGE_lib.a=y".toList]]

/-- The name with a dot deletes the line of the other package. -/
theorem dotted_name_deletes_other :
    Pattern.anchored.Lawful Pattern.basicOperators ∧
      (∀ line ∈ options dottedFiles, ∀ c ∈ optionName line, isNameChar c) ∧
      ¬ (merge Pattern.anchored dottedFiles).getD [] = lastWins (options dottedFiles) := by
  refine ⟨Pattern.anchored_lawful (by decide), forall_isNameChar (by decide), ?_⟩
  decide

end TurrisBuild.Configure
