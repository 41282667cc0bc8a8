import Mathlib.Data.List.Basic
import Mathlib.Data.List.TakeWhile

/-!
# The options of the medkit generator

`generate_medkit.sh` fills the settings that it exports to the bootstrap script in a loop
over its arguments, and stops when an argument or the outcome of the loop is not as it
should be. The variable that `--drivers` fills is not the exported one, and the test for a
second `--contract` looks at a text that is never empty.
-/

namespace TurrisBuild.GenerateMedkit

abbrev Word := List Char

/-- `PUBLISH_BRANCH` of `defaults.sh` -/
def publishBranch : Word := "hbs".toList

/-- The variables that the loop fills. All but the last two are exported. -/
structure Settings where
  bootstrapBoard : Word := []
  branch : Word := publishBranch
  bootstrapUpdaterBranch : Word := []
  bootstrapBase : Word := []
  bootstrapL10N : Word := "cs,de".toList
  bootstrapPkglists : Word := []
  bootstrapDrivers : Word := []
  bootstrapContract : Word := []
  updaterScript : Word := []
  overlay : Word := []
  output : Word := []
  bootstrapTestkey : Word := []
  bootstrapInitialConfig : Word := []
  driversDrivers : Word := []
  defaultOutputExt : Word := []

/-- The options with an argument. -/
inductive Valued
  | target
  | branch
  | base
  | updaterBranch
  | localization
  | lists
  | drivers
  | contract
  | updaterScript
  | overlay
deriving DecidableEq

inductive Opt
  | help
  | initialConfig
  | valued (option : Valued)
deriving DecidableEq

/-- The patterns of the `case`. -/
def optionWords : List (Word × Opt) :=
  [("-h".toList, .help), ("--help".toList, .help),
    ("--target".toList, .valued .target), ("-t".toList, .valued .target),
    ("--branch".toList, .valued .branch), ("-b".toList, .valued .branch),
    ("--base".toList, .valued .base),
    ("--updater-branch".toList, .valued .updaterBranch),
    ("--localization".toList, .valued .localization), ("-l".toList, .valued .localization),
    ("--lists".toList, .valued .lists), ("-p".toList, .valued .lists),
    ("--drivers".toList, .valued .drivers), ("-d".toList, .valued .drivers),
    ("--contract".toList, .valued .contract),
    ("--initial-config".toList, .initialConfig),
    ("--updater-script".toList, .valued .updaterScript),
    ("--overlay".toList, .valued .overlay)]

/-- The option that a word is, for other words none. -/
def optionOf (word : Word) : Option Opt := optionWords.lookup word

/-- What an option does with its argument. -/
def Settings.set (s : Settings) : Valued → Word → Settings
  | .target, value => { s with bootstrapBoard := value }
  | .branch, value => { s with branch := value }
  | .base, value => { s with bootstrapBase := value }
  | .updaterBranch, value =>
    { s with bootstrapUpdaterBranch := value, bootstrapTestkey := ['y'] }
  | .localization, value => { s with bootstrapL10N := value }
  | .lists, value => { s with bootstrapPkglists := value }
  | .drivers, value => { s with driversDrivers := value }
  | .contract, value =>
    { s with bootstrapContract := value, defaultOutputExt := "-contract-".toList ++ value }
  | .updaterScript, value => { s with updaterScript := value }
  | .overlay, value => { s with overlay := value }

/-- Why nothing is generated. -/
inductive Stop
  | help
  | die (message : Word)
  | unbound
  | readlink
deriving DecidableEq

/-- `[ -n "$BOOTSTRAP_CONTRACT:+x" ]` -/
def Settings.contractTest (s : Settings) : Bool :=
  !(s.bootstrapContract ++ ":+x".toList).isEmpty

/-- The loop over the arguments. -/
def parse (s : Settings) : List Word → Except Stop Settings
  | [] => .ok s
  | word :: words =>
    match optionOf word, words with
    | some .help, _ => .error .help
    | some .initialConfig, words => parse { s with bootstrapInitialConfig := ['y'] } words
    | some (.valued option), [] =>
      if option = .contract ∧ s.contractTest = false then
        .error (.die "--contract can be specified only once".toList)
      else .error .unbound
    | some (.valued option), value :: words =>
      if option = .contract ∧ s.contractTest = false then
        .error (.die "--contract can be specified only once".toList)
      else parse (s.set option value) words
    | none, words =>
      if s.output.isEmpty then parse { s with output := word } words
      else .error (.die ("Unknown option: ".toList ++ word))

/-- `"$BOOTSTRAP_BOARD-medkit$default_output_ext.tar.gz"` -/
def defaultOutput (board ext : Word) : Word :=
  board ++ "-medkit".toList ++ ext ++ ".tar.gz".toList

/-- The settings that the bootstrap script gets. A path that `readlink -f` does not resolve
stops the script. -/
def generate (readlink : Word → Option Word) (words : List Word) : Except Stop Settings :=
  match parse {} words with
  | .error stop => .error stop
  | .ok s =>
    if s.bootstrapBoard.isEmpty then
      .error (.die "You have to specify target Turris router.".toList)
    else
      let output :=
        if s.output.isEmpty then defaultOutput s.bootstrapBoard s.defaultOutputExt else s.output
      match readlink output with
      | none => .error .readlink
      | some path => .ok { s with output := path }

/-! ### Arguments -/

/-- A documented option with its argument, or a positional argument. -/
inductive Arg
  | help (word : Word) (h : optionOf word = some .help)
  | initialConfig (word : Word) (h : optionOf word = some .initialConfig)
  | valued (word : Word) (option : Valued) (value : Word)
      (h : optionOf word = some (.valued option))
  | positional (word : Word) (h : optionOf word = none)

def Arg.words : Arg → List Word
  | help word _ => [word]
  | initialConfig word _ => [word]
  | valued word _ value _ => [word, value]
  | positional word _ => [word]

def Arg.isHelp : Arg → Bool
  | help _ _ => true
  | _ => false

def Arg.valueOf (option : Valued) : Arg → Option Word
  | valued _ option' value _ => if option' = option then some value else none
  | _ => none

def Arg.config : Arg → Option Word
  | initialConfig _ _ => some ['y']
  | _ => none

def Arg.position : Arg → Option Word
  | positional word _ => some word
  | _ => none

/-- The value of the last occurrence of an option. -/
def lastOf (option : Valued) (args : List Arg) : Option Word :=
  (args.filterMap (Arg.valueOf option)).getLast?

/-- The given output, or the default one. -/
def outputName (args : List Arg) : Word :=
  match (args.filterMap Arg.position).getLast?.getD [] with
  | [] => defaultOutput ((lastOf .target args).getD [])
      ((lastOf .contract args).elim [] ("-contract-".toList ++ ·))
  | output => output

/-- Each setting is the last value of its option, or the default. -/
structure HasSettings (readlink : Word → Option Word) (args : List Arg) (s : Settings) :
    Prop where
  board : s.bootstrapBoard = (lastOf .target args).getD []
  branch : s.branch = (lastOf .branch args).getD "hbs".toList
  base : s.bootstrapBase = (lastOf .base args).getD []
  updaterBranch : s.bootstrapUpdaterBranch = (lastOf .updaterBranch args).getD []
  localization : s.bootstrapL10N = (lastOf .localization args).getD "cs,de".toList
  lists : s.bootstrapPkglists = (lastOf .lists args).getD []
  drivers : s.bootstrapDrivers = (lastOf .drivers args).getD []
  contract : s.bootstrapContract = (lastOf .contract args).getD []
  config : s.bootstrapInitialConfig = (args.filterMap Arg.config).getLast?.getD []
  updaterScript : s.updaterScript = (lastOf .updaterScript args).getD []
  overlay : s.overlay = (lastOf .overlay args).getD []
  output : readlink (outputName args) = some s.output

/-- There is no board, a second positional argument or a second contract. -/
def Refusable (args : List Arg) : Prop :=
  (lastOf .target args).getD [] = [] ∨ 2 ≤ (args.filterMap Arg.position).length ∨
    2 ≤ (args.filterMap (Arg.valueOf .contract)).length

instance (args : List Arg) : Decidable (Refusable args) := inferInstanceAs (Decidable (_ ∨ _ ∨ _))

/-- The script stops with an error for exactly these arguments, and has the settings of the
options for all others. -/
def HonoursOptions (readlink : Word → Option Word) (args : List Arg) : Prop :=
  ((∃ stop, generate readlink (args.flatMap Arg.words) = .error stop ∧ stop ≠ .help) ↔
      Refusable args) ∧
    (¬Refusable args →
      ∃ s, generate readlink (args.flatMap Arg.words) = .ok s ∧ HasSettings readlink args s)

/-- Before any help, a positional argument follows one that is not empty. -/
def Blocked (args : List Arg) : Prop :=
  ∃ word ∈ ((args.takeWhile (!·.isHelp)).filterMap Arg.position).dropLast, word ≠ []

/-- The script is blocked, or no help is asked for and the script is stopped by something
else, or it has no reason to stop and no drivers to lose. -/
def Unaffected (readlink : Word → Option Word) (args : List Arg) : Prop :=
  Blocked args ∨ (∀ arg ∈ args, arg.isHelp = false) ∧
    ((Refusable args ∧
        ((lastOf .target args).getD [] = [] ∨ readlink (outputName args) = none)) ∨
      (¬Refusable args ∧ (readlink (outputName args)).isSome = true ∧
        (lastOf .drivers args).getD [] = []))

/-! ### The loop -/

/-- A second contract is never noticed. -/
theorem contractTest_eq_true (s : Settings) : s.contractTest = true := by
  rw [Settings.contractTest, Bool.not_eq_true', List.isEmpty_eq_false_iff]
  exact List.append_ne_nil_of_right_ne_nil _ (by decide)

/-- The settings after an argument that does not stop the loop. -/
def Settings.apply (s : Settings) : Arg → Settings
  | .help _ _ => s
  | .initialConfig _ _ => { s with bootstrapInitialConfig := ['y'] }
  | .valued _ option value _ => s.set option value
  | .positional word _ => { s with output := word }

private theorem Settings.output_set (s : Settings) (option : Valued) (value : Word) :
    (s.set option value).output = s.output := by cases option <;> rfl

section Parse

variable (s : Settings) {word : Word} (words : List Word)

private theorem parse_help (h : optionOf word = some .help) :
    parse s (word :: words) = .error .help := by
  rw [parse.eq_def]
  simp only [h]

private theorem parse_initialConfig (h : optionOf word = some .initialConfig) :
    parse s (word :: words) = parse { s with bootstrapInitialConfig := ['y'] } words := by
  rw [parse.eq_def]
  simp only [h]

private theorem parse_valued {option : Valued} (h : optionOf word = some (.valued option))
    (value : Word) :
    parse s (word :: value :: words) = parse (s.set option value) words := by
  rw [parse.eq_def]
  simp only [h, contractTest_eq_true, Bool.true_eq_false, and_false, if_false]

/-- A word that is no option is the output, unless there is one. -/
theorem parse_positional (h : optionOf word = none) :
    parse s (word :: words) =
      if s.output.isEmpty then parse { s with output := word } words
      else .error (.die ("Unknown option: ".toList ++ word)) := by
  rw [parse.eq_def]
  simp only [h]

end Parse

/-- With the output so far before the arguments. -/
private def BlockedFrom (output : Word) (args : List Arg) : Prop :=
  ∃ word ∈ (output :: (args.takeWhile (!·.isHelp)).filterMap Arg.position).dropLast, word ≠ []

private theorem blockedFrom_cons {arg : Arg} (hhelp : arg.isHelp = false)
    (hposition : arg.position = none) (output : Word) (args : List Arg) :
    BlockedFrom output (arg :: args) ↔ BlockedFrom output args := by
  rw [BlockedFrom, List.takeWhile_cons_of_pos (by rw [hhelp]; rfl),
    List.filterMap_cons_none hposition]
  rfl

private theorem blockedFrom_positional {word : Word} (h : optionOf word = none) (output : Word)
    (args : List Arg) :
    BlockedFrom output (.positional word h :: args) ↔ output ≠ [] ∨ BlockedFrom word args := by
  have hposition : (Arg.positional word h).position = some word := rfl
  rw [BlockedFrom, List.takeWhile_cons_of_pos rfl, List.filterMap_cons_some hposition,
    List.dropLast_cons_cons, BlockedFrom]
  simp

private theorem blockedFrom_help {word : Word} (h : optionOf word = some .help) (output : Word)
    (args : List Arg) : ¬BlockedFrom output (.help word h :: args) := by
  rintro ⟨_, hmem, -⟩
  exact List.not_mem_nil hmem

/-- The loop is blocked, comes to help, or goes through all arguments. -/
private inductive Ends (s : Settings) (args : List Arg) : Prop
  | blocked (h : BlockedFrom s.output args) (message : Word)
      (hparse : parse s (args.flatMap Arg.words) = .error (.die message))
  | help (h : ¬BlockedFrom s.output args) (arg : Arg) (hmem : arg ∈ args)
      (hhelp : arg.isHelp = true)
      (hparse : parse s (args.flatMap Arg.words) = .error .help)
  | done (h : ¬BlockedFrom s.output args) (hhelp : ∀ arg ∈ args, arg.isHelp = false)
      (hparse : parse s (args.flatMap Arg.words) = .ok (args.foldl Settings.apply s))

/-- An argument that is not positional and not help leaves the end to the arguments behind it. -/
private theorem Ends.cons {s : Settings} {arg : Arg} {args : List Arg}
    (hhelp : arg.isHelp = false)
    (hblocked : BlockedFrom s.output (arg :: args) ↔ BlockedFrom (s.apply arg).output args)
    (hparse : parse s ((arg :: args).flatMap Arg.words) =
      parse (s.apply arg) (args.flatMap Arg.words))
    (h : Ends (s.apply arg) args) : Ends s (arg :: args) := by
  cases h with
  | blocked h message hrest => exact .blocked (hblocked.mpr h) message (hparse.trans hrest)
  | help h arg' hmem hhelp' hrest =>
    exact .help (mt hblocked.mp h) arg' (List.mem_cons_of_mem _ hmem) hhelp' (hparse.trans hrest)
  | done h hall hrest =>
    exact .done (mt hblocked.mp h) (List.forall_mem_cons.mpr ⟨hhelp, hall⟩) (hparse.trans hrest)

private theorem ends (s : Settings) (args : List Arg) : Ends s args := by
  induction args generalizing s with
  | nil => exact .done (by simp [BlockedFrom]) (by simp) rfl
  | cons arg args ih =>
    cases arg with
    | help word h =>
      refine .help (blockedFrom_help h _ args) _ List.mem_cons_self rfl ?_
      exact parse_help s _ h
    | initialConfig word h =>
      refine Ends.cons rfl ?_ (parse_initialConfig s _ h) (ih _)
      exact blockedFrom_cons rfl rfl s.output args
    | valued word option value h =>
      refine Ends.cons rfl ?_ (parse_valued s _ h value) (ih _)
      rw [Settings.apply, s.output_set]
      exact blockedFrom_cons rfl rfl s.output args
    | positional word h =>
      have hparse := parse_positional s (args.flatMap Arg.words) h
      have hblocked := blockedFrom_positional h s.output args
      cases houtput : s.output with
      | nil =>
        rw [houtput, List.isEmpty_nil, if_pos rfl] at hparse
        refine Ends.cons rfl ?_ hparse (ih _)
        rw [hblocked, houtput]
        simp [Settings.apply]
      | cons c output =>
        rw [houtput, List.isEmpty_cons, if_neg Bool.false_ne_true] at hparse
        exact .blocked (hblocked.mpr (.inl (by simp [houtput]))) _ hparse

/-! ### The settings after the loop -/

/-- A variable that only the values of one option get has the last one of them. -/
theorem foldl_apply (get : Settings → Word) {value : Arg → Option Word}
    (hget : ∀ s arg, get (s.apply arg) = (value arg).getD (get s)) (s : Settings)
    (args : List Arg) :
    get (args.foldl Settings.apply s) = (args.filterMap value).getLast?.getD (get s) := by
  induction args generalizing s with
  | nil => rfl
  | cons arg args ih =>
    rw [List.foldl_cons, ih, hget]
    cases hvalue : value arg with
    | none => rw [List.filterMap_cons_none hvalue, Option.getD_none]
    | some word => rw [List.filterMap_cons_some hvalue, List.getLast?_cons, Option.getD_some,
        Option.getD_some]

/-- The variable that an option fills. -/
def Valued.get : Valued → Settings → Word
  | target => Settings.bootstrapBoard
  | branch => Settings.branch
  | base => Settings.bootstrapBase
  | updaterBranch => Settings.bootstrapUpdaterBranch
  | localization => Settings.bootstrapL10N
  | lists => Settings.bootstrapPkglists
  | drivers => Settings.driversDrivers
  | contract => Settings.bootstrapContract
  | updaterScript => Settings.updaterScript
  | overlay => Settings.overlay

private theorem Valued.get_set (option option' : Valued) (s : Settings) (value : Word) :
    option.get (s.set option' value) = if option' = option then value else option.get s := by
  cases option <;> cases option' <;> rfl

private theorem Valued.get_apply (option : Valued) (s : Settings) (arg : Arg) :
    option.get (s.apply arg) = (arg.valueOf option).getD (option.get s) := by
  cases arg with
  | valued word option' value h =>
    rw [Settings.apply, get_set, Arg.valueOf]
    split
    · rfl
    · rfl
  | help word h => rfl
  | initialConfig word h => cases option <;> rfl
  | positional word h => cases option <;> rfl

/-- The variables after a loop through all arguments. -/
private def after (args : List Arg) : Settings := args.foldl Settings.apply {}

variable {readlink : Word → Option Word} {args : List Arg}

private theorem get_after (option : Valued) :
    option.get (after args) = (lastOf option args).getD (option.get {}) :=
  foldl_apply option.get option.get_apply {} args

private theorem config_after :
    (after args).bootstrapInitialConfig = (args.filterMap Arg.config).getLast?.getD [] := by
  refine foldl_apply Settings.bootstrapInitialConfig ?_ {} args
  rintro s (_ | _ | ⟨_, _ | _, _, _⟩ | _) <;> rfl

private theorem output_after :
    (after args).output = (args.filterMap Arg.position).getLast?.getD [] := by
  refine foldl_apply Settings.output ?_ {} args
  rintro s (_ | _ | ⟨_, _ | _, _, _⟩ | _) <;> rfl

private theorem ext_after :
    (after args).defaultOutputExt = (lastOf .contract args).elim [] ("-contract-".toList ++ ·) := by
  have hlast : (after args).defaultOutputExt = (args.filterMap fun arg =>
      (arg.valueOf .contract).map ("-contract-".toList ++ ·)).getLast?.getD [] := by
    refine foldl_apply Settings.defaultOutputExt ?_ {} args
    rintro s (_ | _ | ⟨_, _ | _, _, _⟩ | _) <;> rfl
  rw [hlast, ← List.map_filterMap, List.getLast?_map, lastOf]
  cases (args.filterMap (Arg.valueOf .contract)).getLast? <;> rfl

/-- No option fills the exported variable of the drivers. -/
private theorem drivers_after : (after args).bootstrapDrivers = [] := by
  have hlast : (after args).bootstrapDrivers =
      (args.filterMap fun _ => (none : Option Word)).getLast?.getD [] := by
    refine foldl_apply Settings.bootstrapDrivers ?_ {} args
    rintro s (_ | _ | ⟨_, _ | _, _, _⟩ | _) <;> rfl
  rw [hlast, List.filterMap_eq_nil_iff.mpr fun _ _ => rfl]
  rfl

private theorem outputName_eq :
    outputName args = if (after args).output.isEmpty then
      defaultOutput (after args).bootstrapBoard (after args).defaultOutputExt
      else (after args).output := by
  have hboard : (after args).bootstrapBoard = (lastOf .target args).getD [] := get_after .target
  rw [outputName, ← output_after, ext_after, hboard]
  cases (after args).output <;> rfl

/-- Everything but the drivers is as the arguments say. -/
private theorem hasSettings_iff {path : Word} (h : readlink (outputName args) = some path) :
    HasSettings readlink args { after args with output := path } ↔
      (lastOf .drivers args).getD [] = [] := by
  constructor
  · intro hsettings
    rw [← hsettings.drivers]
    exact drivers_after
  · intro hdrivers
    exact
      { board := get_after .target
        branch := get_after .branch
        base := get_after .base
        updaterBranch := get_after .updaterBranch
        localization := get_after .localization
        lists := get_after .lists
        drivers := drivers_after.trans hdrivers.symm
        contract := get_after .contract
        config := config_after
        updaterScript := get_after .updaterScript
        overlay := get_after .overlay
        output := h }

/-! ### The end of the script -/

private theorem blocked_iff : BlockedFrom [] args ↔ Blocked args := by
  rw [BlockedFrom, Blocked]
  cases (args.takeWhile (!·.isHelp)).filterMap Arg.position with
  | nil => simp
  | cons word words => simp

/-- When the loop goes through, a board and a path for the output are needed. -/
private theorem generate_done (readlink : Word → Option Word)
    (hparse : parse {} (args.flatMap Arg.words) = .ok (after args)) :
    generate readlink (args.flatMap Arg.words) =
      if (lastOf .target args).getD [] = [] then
        .error (.die "You have to specify target Turris router.".toList)
      else match readlink (outputName args) with
        | none => .error .readlink
        | some path => .ok { after args with output := path } := by
  have hboard : (after args).bootstrapBoard = (lastOf .target args).getD [] := get_after .target
  rw [generate, hparse, outputName_eq]
  simp only [List.isEmpty_iff, hboard]

/-- A blocked script has more than one positional argument. -/
private theorem refusable_of_blocked (h : Blocked args) : Refusable args := by
  obtain ⟨word, hmem, -⟩ := h
  have hpos := List.length_pos_of_mem hmem
  have hsub := ((List.takeWhile_sublist (fun arg : Arg => !arg.isHelp) (l := args)).filterMap
    Arg.position).length_le
  rw [List.length_dropLast] at hpos
  exact .inr (.inl (by omega))

private theorem honoursOptions_done
    (hparse : parse {} (args.flatMap Arg.words) = .ok (after args)) :
    HonoursOptions readlink args ↔
      (Refusable args ∧
        ((lastOf .target args).getD [] = [] ∨ readlink (outputName args) = none)) ∨
      (¬Refusable args ∧ (readlink (outputName args)).isSome = true ∧
        (lastOf .drivers args).getD [] = []) := by
  have hdone := generate_done readlink hparse
  rw [HonoursOptions, hdone]
  by_cases hboard : (lastOf .target args).getD [] = []
  · have hrefusable : Refusable args := .inl hboard
    rw [if_pos hboard]
    refine iff_of_true ⟨iff_of_true ⟨_, rfl, by simp⟩ hrefusable, ?_⟩ ?_
    · exact fun hnot => absurd hrefusable hnot
    · exact .inl ⟨hrefusable, .inl hboard⟩
  rw [if_neg hboard]
  cases hread : readlink (outputName args) with
  | none =>
    constructor
    · rintro ⟨hfails, -⟩
      exact .inl ⟨hfails.mp ⟨_, rfl, by simp⟩, .inr rfl⟩
    · rintro (⟨hrefusable, -⟩ | ⟨-, hsome, -⟩)
      · exact ⟨iff_of_true ⟨_, rfl, by simp⟩ hrefusable, fun hnot => absurd hrefusable hnot⟩
      · cases hsome
  | some path =>
    constructor
    · rintro ⟨hfails, hsettings⟩
      have hnot : ¬Refusable args := by
        intro hrefusable
        obtain ⟨_, heq, -⟩ := hfails.mpr hrefusable
        cases heq
      obtain ⟨s, heq, hs⟩ := hsettings hnot
      obtain rfl := Except.ok.inj heq
      exact .inr ⟨hnot, rfl, (hasSettings_iff hread).mp hs⟩
    · rintro (⟨-, hnone | hnone⟩ | ⟨hnot, -, hdrivers⟩)
      · exact absurd hnone hboard
      · cases hnone
      · refine ⟨iff_of_false ?_ hnot, fun _ => ⟨_, rfl, (hasSettings_iff hread).mpr hdrivers⟩⟩
        rintro ⟨_, heq, -⟩
        cases heq

/-- **The options are honoured.** The script stops for the right arguments and otherwise has
the right settings exactly when it is blocked by a second positional argument, or help is
not asked for, another reason to refuse does not go unnoticed, and no drivers are given. -/
theorem honoursOptions_iff (readlink : Word → Option Word) (args : List Arg) :
    HonoursOptions readlink args ↔ Unaffected readlink args := by
  rw [Unaffected, ← blocked_iff]
  cases ends {} args with
  | blocked h message hparse =>
    have hrefusable := refusable_of_blocked (blocked_iff.mp h)
    have hgenerate : generate readlink (args.flatMap Arg.words) = .error (.die message) := by
      rw [generate, hparse]
    refine iff_of_true ⟨iff_of_true ⟨_, hgenerate, by simp⟩ hrefusable, ?_⟩ (.inl h)
    exact fun hnot => absurd hrefusable hnot
  | help h arg hmem hhelp hparse =>
    have hgenerate : generate readlink (args.flatMap Arg.words) = .error .help := by
      rw [generate, hparse]
    rw [HonoursOptions, hgenerate]
    refine iff_of_false ?_ ?_
    · -- Help is no error, and there are no settings.
      rintro ⟨hfails, hsettings⟩
      by_cases hrefusable : Refusable args
      · obtain ⟨stop, heq, hne⟩ := hfails.mpr hrefusable
        exact hne (Except.error.inj heq).symm
      · obtain ⟨s, heq, -⟩ := hsettings hrefusable
        cases heq
    · rintro (hblocked | ⟨hall, -⟩)
      · exact h hblocked
      · rw [hall arg hmem] at hhelp
        cases hhelp
  | done h hall hparse =>
    rw [honoursOptions_done hparse, or_iff_right h, and_iff_right hall]

/-- `--target omnia` -/
private def targetOmnia : Arg := .valued "--target".toList .target "omnia".toList (by decide)

/-- `--drivers usb:x` -/
private def someDrivers : Arg := .valued "--drivers".toList .drivers "usb:x".toList (by decide)

/-- `--contract a` -/
private def someContract : Arg := .valued "--contract".toList .contract ['a'] (by decide)

/-- The drivers do not reach the bootstrap script, and a second contract does not stop it. -/
theorem drivers_are_lost :
    ¬HonoursOptions some [targetOmnia, someDrivers] ∧
      ¬HonoursOptions some [targetOmnia, someContract, someContract] := by
  constructor
  · rintro ⟨-, hsettings⟩
    obtain ⟨s, hgenerate, hs⟩ := hsettings (by decide)
    have hlost : (generate some ([targetOmnia, someDrivers].flatMap Arg.words)).toOption.map
        Settings.bootstrapDrivers = some [] := by decide
    rw [hgenerate, Except.toOption, Option.map_some, hs.drivers] at hlost
    exact absurd hlost (by decide)
  · rintro ⟨hfails, -⟩
    obtain ⟨stop, hgenerate, -⟩ := hfails.mpr (by decide)
    have hdone : (generate some
        ([targetOmnia, someContract, someContract].flatMap Arg.words)).isOk = true := by decide
    rw [hgenerate] at hdone
    cases hdone

end TurrisBuild.GenerateMedkit
