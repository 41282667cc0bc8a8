import TurrisBuild.Configure.Merge
import TurrisBuild.Lib.Repetition

/-!
# The verification loop of `configure`

After `make defconfig` every setting of `.config_generated` is looked for in the
final `.config`, and `configure` dies when one of them is reported missing. The
lookup is a regular expression made of the setting itself, and the settings that
ask for `n` are looked up in another way than the others.
-/

namespace TurrisBuild.Configure

/-- The line of the option when it is built in. -/
def Setting.enabled (s : Setting) : Line := s.name ++ ['=', 'y']

/-- The line of the option when it is built as a module. -/
def Setting.asModule (s : Setting) : Line := s.name ++ ['=', 'm']

/-- The value is not empty and is not a comment. -/
def Setting.IsRequest (s : Setting) : Prop := s.value ≠ [] ∧ s.value.head? ≠ some '#'

instance (s : Setting) : Decidable s.IsRequest := inferInstanceAs (Decidable (_ ∧ _))

section Loop

variable (grep : Pattern.Engine)

/-- `grep -qE` on a file. A refused pattern counts as a failure. -/
def grepFile (pattern : List Char) (conf : List Line) : Bool := conf.any (grep.selects pattern)

/-- One iteration of the loop: the line it adds to `.missing_values`. -/
def checkSetting (conf : List Line) (s : Setting) : Option Line :=
  if s.value = [] then none
  else if s.value.head? = some '#' then none
  else if s.value = ['n'] then
    if grepFile grep ('^' :: s.enabled) conf then some ('^' :: s.enabled) else none
  else
    if grepFile grep ('^' :: (s.line ++ ['$'])) conf then none else some ('^' :: s.line)

/-- The lines of `.missing_values` after the loop. -/
def missingValues (gen conf : List Line) : List Line :=
  (gen.map readSetting).filterMap (checkSetting grep conf)

/-- `configure` ends with "Broken configuration". -/
def brokenConfiguration (gen conf : List Line) : Bool := (missingValues grep gen conf).length != 0

end Loop

/-! ### What the verification is for -/

/-- The settings that the lines ask for, split at the first `=`. -/
def requests (gen : List Line) : List Setting :=
  (gen.map fun line => ⟨optionName line, optionValue line⟩).filter Setting.IsRequest

/-- The final configuration honours the setting. -/
def Honoured (conf : List Line) (s : Setting) : Prop :=
  if s.value = ['n'] then s.enabled ∉ conf ∧ s.asModule ∉ conf else s.line ∈ conf

instance (conf : List Line) (s : Setting) : Decidable (Honoured conf s) :=
  inferInstanceAs (Decidable (ite _ _ _))

/-! ### The configurations judged rightly -/

section Judged

open Pattern

/-- The text that is looked up has no operators but the dot and repetitions. -/
def Setting.Repeating (s : Setting) : Prop :=
  Pattern.Repeating (if s.value = ['n'] then s.enabled else s.line)

instance (s : Setting) : Decidable s.Repeating := inferInstanceAs (Decidable (Pattern.Repeating _))

variable (conf : List Line)

/-- Some line begins like the `=y` line of the option. -/
def BeginsEnabled (s : Setting) : Prop :=
  ∃ line ∈ conf, ∃ part, part <+: line ∧ Described (pieces s.enabled) part

/-- Some line is like the line that is asked for. -/
def HasLike (s : Setting) : Prop := ∃ line ∈ conf, Described (pieces s.line) line

/-- What is like the lines of a setting is there just when these lines are: for `n` a line
that begins like the `=y` line, when the option is there, built in or as a module; else a
line like the one asked for, when this very line is. -/
def LookedUpRightly (s : Setting) : Prop :=
  if s.value = ['n'] then (BeginsEnabled conf s ↔ s.enabled ∈ conf ∨ s.asModule ∈ conf)
  else (HasLike conf s ↔ s.line ∈ conf)

/-- The verdict is right about all settings, or about an unhonoured one; or it is wrong
about an unhonoured and about an honoured one. -/
def RightInAll (settings : List Setting) : Prop :=
  (∀ s ∈ settings, LookedUpRightly conf s) ∨
    (∃ s ∈ settings, ¬Honoured conf s ∧ LookedUpRightly conf s) ∨
    ((∃ s ∈ settings, ¬Honoured conf s ∧ ¬LookedUpRightly conf s) ∧
      ∃ s ∈ settings, Honoured conf s ∧ ¬LookedUpRightly conf s)

variable {conf}

/-- Without operators only what begins with the `=y` line itself is like it. -/
theorem beginsEnabled_iff {s : Setting} (hplain : ∀ c ∈ s.enabled, c ∉ extendedOperators) :
    BeginsEnabled conf s ↔ ∃ line ∈ conf, s.enabled <+: line := by
  simp only [BeginsEnabled, described_iff_eq hplain, exists_eq_right']

/-- Without operators every setting that does not ask for `n` is looked up rightly. -/
theorem lookedUpRightly_of_plain {s : Setting} (hn : s.value ≠ ['n'])
    (hplain : ∀ c ∈ s.line, c ∉ extendedOperators) : LookedUpRightly conf s := by
  simp only [LookedUpRightly, if_neg hn, HasLike, described_iff_eq hplain, exists_eq_right']

end Judged

section Exact

variable {grep : Pattern.Engine} {conf : List Line}

private theorem grepFile_begins (hgrep : grep.Repeats) {text : List Char}
    (htext : Pattern.Repeating text) :
    grepFile grep ('^' :: text) conf = true ↔
      ∃ line ∈ conf, ∃ part, part <+: line ∧ Pattern.Described (Pattern.pieces text) part := by
  obtain ⟨decides, heq, hdecides⟩ := hgrep.begins htext
  simp only [grepFile, Pattern.Engine.selects, heq, List.any_eq_true, hdecides]

private theorem grepFile_whole (hgrep : grep.Repeats) {text : List Char}
    (htext : Pattern.Repeating text) :
    grepFile grep ('^' :: (text ++ ['$'])) conf = true ↔
      ∃ line ∈ conf, Pattern.Described (Pattern.pieces text) line := by
  obtain ⟨decides, heq, hdecides⟩ := hgrep.whole htext
  simp only [grepFile, Pattern.Engine.selects, heq, List.any_eq_true, hdecides]

/-- When the loop reports a request. -/
theorem checkSetting_isSome_iff (hgrep : grep.Repeats) {s : Setting} (hs : s.IsRequest)
    (hrepeating : s.Repeating) :
    (checkSetting grep conf s).isSome ↔
      if s.value = ['n'] then BeginsEnabled conf s else ¬HasLike conf s := by
  obtain ⟨hempty, hcomment⟩ := hs
  unfold Setting.Repeating at hrepeating
  by_cases hn : s.value = ['n']
  · rw [if_pos hn] at hrepeating ⊢
    rw [BeginsEnabled, ← grepFile_begins hgrep hrepeating]
    simp [checkSetting, hn]
  · rw [if_neg hn] at hrepeating ⊢
    rw [HasLike, ← grepFile_whole hgrep hrepeating]
    simp [checkSetting, hn, hempty, hcomment]

/-- A request is looked up rightly when it is reported just in case it is not honoured. -/
theorem lookedUpRightly_iff (hgrep : grep.Repeats) {s : Setting} (hs : s.IsRequest)
    (hrepeating : s.Repeating) :
    LookedUpRightly conf s ↔ ((checkSetting grep conf s).isSome ↔ ¬Honoured conf s) := by
  rw [checkSetting_isSome_iff hgrep hs hrepeating]
  unfold LookedUpRightly Honoured
  by_cases hn : s.value = ['n']
  · simp only [if_pos hn]
    rw [← not_or, not_not]
  · simp only [if_neg hn]
    rw [not_iff_not]

/-- A setting that is no request is skipped. -/
theorem isRequest_of_checkSetting {s : Setting} (hs : (checkSetting grep conf s).isSome) :
    s.IsRequest := by
  unfold checkSetting at hs
  split at hs
  · simp at hs
  · split at hs
    · simp at hs
    · exact ⟨‹_›, ‹_›⟩

/-- The script dies when some request is reported. -/
theorem brokenConfiguration_iff {sed : Pattern.Engine} {files : List (List Line)}
    {gen : List Line} (hgen : merge sed files = some gen) :
    brokenConfiguration grep gen conf = true ↔
      ∃ s ∈ requests gen, (checkSetting grep conf s).isSome := by
  have hread : gen.map readSetting = gen.map fun line => ⟨optionName line, optionValue line⟩ := by
    refine List.map_congr_left fun line hline => ?_
    obtain ⟨option, rfl⟩ := written_of_merge hgen hline
    exact readSetting_written option
  rw [brokenConfiguration, missingValues, hread, requests]
  generalize (gen.map fun line => (⟨optionName line, optionValue line⟩ : Setting)) = settings
  simp only [bne_iff_ne, ne_eq, List.length_eq_zero_iff, List.filterMap_eq_nil_iff, not_forall,
    List.mem_filter, decide_eq_true_eq, exists_prop]
  constructor
  · rintro ⟨s, hs, hsome⟩
    have hsome : (checkSetting grep conf s).isSome := Option.isSome_iff_ne_none.mpr hsome
    exact ⟨s, ⟨hs, isRequest_of_checkSetting hsome⟩, hsome⟩
  · rintro ⟨s, ⟨hs, -⟩, hsome⟩
    exact ⟨s, hs, Option.isSome_iff_ne_none.mp hsome⟩

end Exact

/-- **The verification.** For every merged configuration, whose lines have no operators
but the dot and repetitions, and every final one, `configure` dies exactly over unhonoured
requests exactly when all requests are looked up rightly, or one that is unhonoured is, or
errors of both kinds meet. -/
theorem verification_exact_iff {sed grep : Pattern.Engine} {files : List (List Line)}
    {gen : List Line} (hgrep : grep.Repeats) (hgen : merge sed files = some gen)
    (hrepeating : ∀ s ∈ requests gen, s.Repeating) (conf : List Line) :
    (brokenConfiguration grep gen conf = true ↔ ∃ s ∈ requests gen, ¬Honoured conf s) ↔
      RightInAll conf (requests gen) := by
  have hright : ∀ s ∈ requests gen,
      (LookedUpRightly conf s ↔ ((checkSetting grep conf s).isSome ↔ ¬Honoured conf s)) := by
    intro s hs
    have hrequest : s.IsRequest := by simpa using (List.mem_filter.mp hs).2
    exact lookedUpRightly_iff hgrep hrequest (hrepeating s hs)
  rw [brokenConfiguration_iff hgen]
  constructor
  · intro hexact
    by_cases hall : ∀ s ∈ requests gen, LookedUpRightly conf s
    · exact .inl hall
    by_cases hcaught : ∃ s ∈ requests gen, ¬Honoured conf s ∧ LookedUpRightly conf s
    · exact .inr (.inl hcaught)
    -- One of the errors comes with another one of the other kind, or the verdict is wrong.
    simp only [not_forall, exists_prop] at hall
    obtain ⟨s, hs, hwrong⟩ := hall
    by_cases hhonoured : Honoured conf s
    · have hreported : (checkSetting grep conf s).isSome := by
        by_contra hnone
        exact hwrong ((hright s hs).mpr (iff_of_false hnone (not_not.mpr hhonoured)))
      obtain ⟨s', hs', hviolated⟩ := hexact.mp ⟨s, hs, hreported⟩
      exact .inr (.inr ⟨⟨s', hs', hviolated, fun h => hcaught ⟨s', hs', hviolated, h⟩⟩,
        s, hs, hhonoured, hwrong⟩)
    · obtain ⟨s', hs', hreported⟩ := hexact.mpr ⟨s, hs, hhonoured⟩
      have hhonoured' : Honoured conf s' := by
        by_contra hviolated
        exact hcaught ⟨s', hs', hviolated,
          (hright s' hs').mpr (iff_of_true hreported hviolated)⟩
      refine .inr (.inr ⟨⟨s, hs, hhonoured, hwrong⟩, s', hs', hhonoured', fun h => ?_⟩)
      exact ((hright s' hs').mp h).mp hreported hhonoured'
  · rintro (hall | ⟨s, hs, hviolated, hlooked⟩ |
      ⟨⟨s, hs, hviolated, -⟩, s', hs', hhonoured, hwrong⟩)
    · refine exists_congr fun s => and_congr_right fun hs => ?_
      exact (hright s hs).mp (hall s hs)
    · exact iff_of_true ⟨s, hs, ((hright s hs).mp hlooked).mpr hviolated⟩ ⟨s, hs, hviolated⟩
    · refine iff_of_true ⟨s', hs', ?_⟩ ⟨s, hs, hviolated⟩
      by_contra hnone
      exact hwrong ((hright s' hs').mpr (iff_of_false hnone (not_not.mpr hhonoured)))

/-- A package that is asked for and one that is not wanted. -/
def packageFiles : List (List Line) :=
  [["CONFIG_PACKAGE_luci=y".toList], ["CONFIG_PACKAGE_kmod-ath=n".toList]]

/-- Their lines have no operators. -/
private theorem packageFiles_repeating :
    ∀ s ∈ requests packageFiles.flatten, s.Repeating := by
  decide

/-- A missing package is caught, whatever becomes of the other one. -/
theorem verification_catches_missing :
    merge Pattern.anchored packageFiles = some packageFiles.flatten ∧
      RightInAll ["CONFIG_PACKAGE_kmod-ath=m".toList] (requests packageFiles.flatten) :=
  ⟨by decide, (verification_exact_iff Pattern.extended_repeats
    (by decide : merge Pattern.anchored packageFiles = some packageFiles.flatten)
      packageFiles_repeating _).mp (by decide)⟩

/-- An unwanted package that is built as a module passes. -/
theorem verification_overlooks_module :
    Pattern.extended.Repeats ∧
      merge Pattern.anchored packageFiles = some packageFiles.flatten ∧
      (∀ s ∈ requests packageFiles.flatten, s.Repeating) ∧
      ¬ (brokenConfiguration Pattern.extended packageFiles.flatten
            ["CONFIG_PACKAGE_luci=y".toList, "CONFIG_PACKAGE_kmod-ath=m".toList] = true ↔
          ∃ s ∈ requests packageFiles.flatten, ¬ Honoured
            ["CONFIG_PACKAGE_luci=y".toList, "CONFIG_PACKAGE_kmod-ath=m".toList] s) := by
  refine ⟨Pattern.extended_repeats, ?_, packageFiles_repeating, ?_⟩
  · decide
  · decide

end TurrisBuild.Configure
