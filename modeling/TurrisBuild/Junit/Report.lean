import Mathlib.Data.List.Perm.Subperm
import TurrisBuild.Junit.Cdata
import TurrisBuild.Lib.Pattern

/-!
# The report on the compile logs

`generate_junit.sh` takes the total of errors from the number of lines in `error.txt`,
and the verdict on each package from a search in it, in which the path of the package is a
part of the regular expression.
-/

namespace TurrisBuild.Junit

/-- What the shell splits or expands, and the operators of `grep` but the dot. -/
def specials : List Char := [' ', '\t', '\n', '?', '*', '[', ']', '\\', '^', '$']

/-- The path of a package in the logs. It reaches `dirname` and `grep` as it is, where only
its dots have a meaning of their own. -/
structure PackagePath where
  text : List Char
  noSpecials : text.all (!specials.contains ·) = true
  ends : ∃ init c, text = init ++ [c] ∧ c ≠ '/'

/-- The compile log of a package. -/
structure CompileLog where
  path : PackagePath
  log : Log

/-- A line of `error.txt`. -/
structure ErrorLine where
  path : PackagePath
  rest : List Char
  rest_noNewline : '\n' ∉ rest

def ErrorLine.text (line : ErrorLine) : List Char :=
  "ERROR: ".toList ++ line.path.text ++ " failed".toList ++ (" to build".toList ++ line.rest)

/-- The content of the element `testcase`, whose name is always `compile`. -/
inductive Testcase
  | error (message : List Char) (cdata : List Char)
  | empty

/-- The element `testsuite`. -/
structure Testsuite where
  errors : ℕ
  failures : Option ℕ
  name : List Char
  tests : ℕ
  testcase : Testcase

/-- The element `testsuites`. -/
structure Testsuites where
  errors : ℕ
  tests : ℕ
  suites : List Testsuite

/-- What `find` prints for a log. -/
def CompileLog.file (log : CompileLog) : List Char := log.path.text ++ "/compile.txt".toList

/-- `dirname`, for a name with a slash. -/
def dirname (name : List Char) : List Char :=
  (name.rdropWhile (· != '/')).rdropWhile (· == '/')

/-- `grep "ERROR: $PKG_NAME failed"` in `error.txt` -/
def failed (pkgName : List Char) (errorTxt : List ErrorLine) : Bool :=
  errorTxt.any fun line =>
    Pattern.foundIn ("ERROR: ".toList ++ pkgName ++ " failed".toList) line.text

/-- The body of the loop over the logs. -/
def testsuite (errorTxt : List ErrorLine) (log : CompileLog) : Testsuite :=
  let pkgName := dirname log.file
  if failed pkgName errorTxt then
    { errors := 1, failures := none, name := pkgName, tests := 1,
      testcase := .error (pkgName ++ " failed to compile".toList) (cdata log.log) }
  else { errors := 0, failures := some 0, name := pkgName, tests := 1, testcase := .empty }

/-- The whole report. -/
def generateJunit (logs : List CompileLog) (errorTxt : List ErrorLine) : Testsuites where
  errors := errorTxt.length
  tests := logs.length
  suites := logs.map (testsuite errorTxt)

/-- There is one suite for each log, the verdicts are those of the lines for exactly these
packages, and the totals are those of the suites. -/
def CountsRight (logs : List CompileLog) (errorTxt : List ErrorLine) : Prop :=
  let report := generateJunit logs errorTxt
  report.suites.map Testsuite.name = logs.map (·.path.text) ∧
    (∀ suite ∈ report.suites, suite.errors = 1 ↔ ∃ line ∈ errorTxt, line.path.text = suite.name) ∧
    report.errors = (report.suites.filter (·.errors == 1)).length ∧
    report.tests = report.suites.length

/-- The line is for another package, but between an `ERROR: ` and a ` failed` in it stands a
text that differs from the path at most where the path has a dot. -/
def ErrorLine.MistakenFor (line : ErrorLine) (path : PackagePath) : Prop :=
  line.path.text ≠ path.text ∧ ∃ before like after,
    line.text = before ++ "ERROR: ".toList ++ like ++ " failed".toList ++ after ∧
      List.Forall₂ (fun p c => p = '.' ∨ p = c) path.text like

/-- A line for another package is mistaken only for packages with a line of their own, no two
lines are for one package, and every line is for a package with a log. -/
def OneLineEach (logs : List CompileLog) (errorTxt : List ErrorLine) : Prop :=
  (∀ log ∈ logs, ∀ line ∈ errorTxt, line.MistakenFor log.path →
      ∃ own ∈ errorTxt, own.path.text = log.path.text) ∧
    (errorTxt.map (·.path.text)).Nodup ∧
    ∀ line ∈ errorTxt, ∃ log ∈ logs, log.path.text = line.path.text

/-! ### The verdicts -/

/-- The directory of a log is the path of its package. -/
theorem dirname_file (log : CompileLog) : dirname log.file = log.path.text := by
  obtain ⟨init, c, htext, hc⟩ := log.path.ends
  have hfile : log.file = init ++ [c] ++ ['/'] ++ "compile.txt".toList := by
    rw [CompileLog.file, htext, List.append_assoc (init ++ [c])]
    rfl
  have hdir : log.file.rdropWhile (· != '/') = init ++ [c] ++ ['/'] := by
    rw [hfile]
    simp [List.rdropWhile]
  rw [dirname, hdir, List.rdropWhile_concat_pos _ _ _ rfl,
    List.rdropWhile_concat_neg _ _ _ (by simpa using hc), htext]

/-- A package is found in its own lines. -/
theorem ErrorLine.foundIn_text (line : ErrorLine) :
    Pattern.foundIn ("ERROR: ".toList ++ line.path.text ++ " failed".toList) line.text = true := by
  refine Pattern.foundIn_of_infix ?_
  unfold ErrorLine.text
  exact (List.prefix_append _ _).isInfix

/-- The two words of the pattern are found as they are, only the path has dots. -/
private theorem foundIn_pattern_iff {path text : List Char} :
    Pattern.foundIn ("ERROR: ".toList ++ path ++ " failed".toList) text = true ↔
      ∃ like, "ERROR: ".toList ++ like ++ " failed".toList <:+: text ∧ Pattern.Like path like := by
  simp only [Pattern.foundIn_iff, Pattern.like_append_iff,
    Pattern.like_iff_eq (by decide : '.' ∉ "ERROR: ".toList),
    Pattern.like_iff_eq (by decide : '.' ∉ " failed".toList)]
  constructor
  · rintro ⟨_, hinfix, _, _, rfl, ⟨_, like, rfl, rfl, hlike⟩, rfl⟩
    exact ⟨like, hinfix, hlike⟩
  · rintro ⟨like, hinfix, hlike⟩
    exact ⟨_, hinfix, _, _, rfl, ⟨_, like, rfl, rfl, hlike⟩, rfl⟩

/-- A package with a line has failed. -/
theorem failed_of_mem {path : List Char} {errorTxt : List ErrorLine}
    (h : ∃ line ∈ errorTxt, line.path.text = path) : failed path errorTxt = true := by
  obtain ⟨line, hline, rfl⟩ := h
  rw [failed, List.any_eq_true]
  exact ⟨line, hline, line.foundIn_text⟩

/-- The search finds the lines of a package and those mistaken for one of it. -/
theorem failed_iff {path : PackagePath} {errorTxt : List ErrorLine} :
    failed path.text errorTxt = true ↔
      (∃ line ∈ errorTxt, line.path.text = path.text) ∨
        ∃ line ∈ errorTxt, line.MistakenFor path := by
  constructor
  · intro hfailed
    obtain ⟨line, hline, hfound⟩ := List.any_eq_true.mp hfailed
    by_cases hown : line.path.text = path.text
    · exact .inl ⟨line, hline, hown⟩
    · obtain ⟨like, ⟨before, after, hparts⟩, hlike⟩ := foundIn_pattern_iff.mp hfound
      exact .inr ⟨line, hline, hown, before, like, after, by simpa using hparts.symm, hlike⟩
  · rintro (hown | ⟨line, hline, -, before, like, after, hparts, hlike⟩)
    · exact failed_of_mem hown
    · refine List.any_eq_true.mpr ⟨line, hline, foundIn_pattern_iff.mpr ⟨like, ?_, hlike⟩⟩
      exact ⟨before, after, by simpa using hparts.symm⟩

private theorem testsuite_name (errorTxt : List ErrorLine) (log : CompileLog) :
    (testsuite errorTxt log).name = log.path.text := by
  rw [testsuite, dirname_file]
  split <;> rfl

private theorem testsuite_errors_iff (errorTxt : List ErrorLine) (log : CompileLog) :
    (testsuite errorTxt log).errors = 1 ↔ failed log.path.text errorTxt = true := by
  rw [testsuite, dirname_file]
  split
  · next hfailed => exact iff_of_true rfl hfailed
  · next hfailed => exact iff_of_false Nat.zero_ne_one hfailed

/-- The verdicts are right when lines are mistaken only for packages with a line. -/
private theorem verdicts_iff {logs : List CompileLog} {errorTxt : List ErrorLine} :
    (∀ suite ∈ (generateJunit logs errorTxt).suites,
        suite.errors = 1 ↔ ∃ line ∈ errorTxt, line.path.text = suite.name) ↔
      ∀ log ∈ logs, ∀ line ∈ errorTxt, line.MistakenFor log.path →
        ∃ own ∈ errorTxt, own.path.text = log.path.text := by
  rw [generateJunit, List.forall_mem_map]
  refine forall₂_congr fun log _ => ?_
  rw [testsuite_errors_iff, testsuite_name, failed_iff, or_iff_left_iff_imp]
  constructor
  · intro h line hline hmistaken
    exact h ⟨line, hline, hmistaken⟩
  · rintro h ⟨line, hline, hmistaken⟩
    exact h line hline hmistaken

/-! ### The totals -/

/-- Of distinct texts as many are in a list as the list is long exactly when the list has
no text twice and no other text. -/
theorem length_eq_filter_iff {texts found : List (List Char)} (htexts : texts.Nodup) :
    found.length = (texts.filter (found.contains ·)).length ↔
      found.Nodup ∧ ∀ text ∈ found, text ∈ texts := by
  have hnodup := htexts.filter (found.contains ·)
  have hsub : (texts.filter (found.contains ·)).Subperm found := by
    refine List.subperm_of_subset hnodup fun text htext => ?_
    exact List.contains_iff_mem.mp (List.of_mem_filter htext)
  constructor
  · intro hlength
    have hperm := hsub.perm_of_length_le hlength.le
    exact ⟨hperm.nodup_iff.mp hnodup,
      fun text htext => List.mem_of_mem_filter (hperm.mem_iff.mpr htext)⟩
  · rintro ⟨hfound, hmem⟩
    have hsub' : found.Subperm (texts.filter (found.contains ·)) := by
      refine List.subperm_of_subset hfound fun text htext => ?_
      exact List.mem_filter.mpr ⟨hmem text htext, List.contains_iff_mem.mpr htext⟩
    exact le_antisymm hsub'.length_le hsub.length_le

/-- With right verdicts, the failed suites are those of the packages with a line. -/
private theorem length_failed {logs : List CompileLog} {errorTxt : List ErrorLine}
    (h : ∀ log ∈ logs, ∀ line ∈ errorTxt, line.MistakenFor log.path →
      ∃ own ∈ errorTxt, own.path.text = log.path.text) :
    ((generateJunit logs errorTxt).suites.filter (·.errors == 1)).length =
      ((logs.map (·.path.text)).filter ((errorTxt.map (·.path.text)).contains ·)).length := by
  rw [generateJunit, List.filter_map, List.length_map, List.filter_map, List.length_map]
  congr 1
  refine List.filter_congr fun log hlog => ?_
  rw [Bool.eq_iff_iff, Function.comp_apply, Function.comp_apply, beq_iff_eq, testsuite_errors_iff,
    List.contains_iff_mem, List.mem_map, failed_iff, or_iff_left_iff_imp]
  rintro ⟨line, hline, hmistaken⟩
  exact h log hlog line hline hmistaken

/-- A package path from a text. -/
private def pathOf (init : List Char) (c : Char)
    (h : (init ++ [c]).all (!specials.contains ·) = true) (hc : c ≠ '/') : PackagePath :=
  ⟨init ++ [c], h, init, c, rfl, hc⟩

private def dotted : PackagePath := pathOf "package/lua5.".toList '1' (by decide) (by decide)

private def dashed : PackagePath := pathOf "package/lua5-".toList '1' (by decide) (by decide)

private def emptyLog : Log := ⟨[], true, by decide, by decide⟩

private def dottedLogs : {logs : List CompileLog // (logs.map (·.path.text)).Nodup} :=
  ⟨[⟨dotted, emptyLog⟩, ⟨dashed, emptyLog⟩], by decide⟩

private def lineFor (path : PackagePath) : ErrorLine := ⟨path, [], List.not_mem_nil⟩

end TurrisBuild.Junit
