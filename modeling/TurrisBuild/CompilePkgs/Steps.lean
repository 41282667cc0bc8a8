import Mathlib.Data.List.Nodup
import Mathlib.Logic.Function.Basic
import Mathlib.Tactic.Common
import TurrisBuild.Lib.Outcome

/-!
# The steps of `compile_pkgs`

`compile_pkgs` reads options and commands and runs the commands one after the other.
Two variables, which options and commands set, say whether prebuilt tools and a prebuilt
toolchain are used, and two others name their archives. What `git`, `make` and the
scripts of OpenWrt do to the files is a parameter.
-/

namespace TurrisBuild.CompilePkgs

open Outcome

/-- An argument of the command line. -/
abbrev Word := List Char

/-- The place of a file, from the root on. -/
abbrev Path := List Word

/-- The regular files. -/
abbrev Files (C : Type) := Path → Option C

/-- The commands, `available_commands`. -/
inductive Command
  | genVersion | conflicts | stats | configure | updateMirror | checkout | cleanCcache | setCcache
  | setLocalFeeds | patchOpenwrt | storeHash | repatchFeeds | prefetch | genJunit | pkgsrepo
  | compileTools | compileToolchain | compileTarget | compilePackages | compileSDK
  | packageTools | packageToolchain | prebuiltTools | prebuiltToolchain | compile | sign | clean
  | prepare | prepareTools | autopkg
deriving DecidableEq

/-- The name on the command line. -/
def Command.name : Command → Word
  | genVersion => "gen_version".toList
  | conflicts => "conflicts".toList
  | stats => "stats".toList
  | configure => "configure".toList
  | updateMirror => "update_mirror".toList
  | checkout => "checkout".toList
  | cleanCcache => "clean_ccache".toList
  | setCcache => "set_ccache".toList
  | setLocalFeeds => "set_local_feeds".toList
  | patchOpenwrt => "patch_openwrt".toList
  | storeHash => "store_hash".toList
  | repatchFeeds => "repatch_feeds".toList
  | prefetch => "prefetch".toList
  | genJunit => "gen_junit".toList
  | pkgsrepo => "pkgsrepo".toList
  | compileTools => "compile_tools".toList
  | compileToolchain => "compile_toolchain".toList
  | compileTarget => "compile_target".toList
  | compilePackages => "compile_packages".toList
  | compileSDK => "compile_SDK".toList
  | packageTools => "package_tools".toList
  | packageToolchain => "package_toolchain".toList
  | prebuiltTools => "prebuilt_tools".toList
  | prebuiltToolchain => "prebuilt_toolchain".toList
  | compile => "compile".toList
  | sign => "sign".toList
  | clean => "clean".toList
  | prepare => "prepare".toList
  | prepareTools => "prepare_tools".toList
  | autopkg => "autopkg".toList

/-- All commands. -/
def Command.all : List Command :=
  [genVersion, conflicts, stats, configure, updateMirror, checkout, cleanCcache, setCcache,
    setLocalFeeds, patchOpenwrt, storeHash, repatchFeeds, prefetch, genJunit, pkgsrepo,
    compileTools, compileToolchain, compileTarget, compilePackages, compileSDK, packageTools,
    packageToolchain, prebuiltTools, prebuiltToolchain, compile, sign, clean, prepare,
    prepareTools, autopkg]

/-- The steps that are run when no commands are given. -/
def defaultSteps : List Command :=
  [.prepareTools, .compile, .sign, .storeHash, .stats, .pkgsrepo, .genJunit]

/-- The two parts that can be prebuilt. -/
inductive Part
  | tools
  | toolchain
deriving DecidableEq

/-! ### The command line -/

/-- The boards of `set_target`. -/
inductive Board
  | omnia | turris1x | mox | omniaNg
deriving DecidableEq

/-- The name of the board, `TARGET_BOARD`. -/
def Board.name : Board → Word
  | omnia => "omnia".toList
  | turris1x => "turris1x".toList
  | mox => "mox".toList
  | omniaNg => "omnia-ng".toList

/-- The variables that options set. -/
structure Settings where
  buildJobs : Word
  force : Word
  /-- `PREBUILT_TOOLS` and `PREBUILT_TOOLCHAIN` are not empty. -/
  prebuilt : Part → Bool
  /-- `PREBUILT_TOOLS_TAR` and `PREBUILT_TOOLCHAIN_TAR`. -/
  tar : Part → Word
  targetBoard : Option Board
  buildArgs : List Word
  publishBranch : Word
  mirrorsUpdated : Bool
  outputDir : Word
  signKey : Word
  debug : Bool
  steps : List Command

/-- How the script ends while it reads its arguments. -/
inductive Exit
  | help
  | failure
deriving DecidableEq

/-- `set_target` -/
def setTarget (settings : Settings) (name : Word) : Except Exit Settings :=
  match [Board.omnia, .turris1x, .mox, .omniaNg].find? (·.name = name) with
  | some board => .ok { settings with targetBoard := some board }
  | none => .error .failure

/-- An option without an argument of its own. -/
def setFlag (settings : Settings) (word : Word) : Except Exit Settings :=
  if word = "-e".toList then .ok settings
  else if word.take 2 = "-j".toList then .ok { settings with buildJobs := word.drop 2 }
  else if word.take 2 = "-f".toList then
    .ok { settings with force := if word.drop 2 = [] then ['1'] else word.drop 2 }
  else if word = "--tools".toList then
    .ok { settings with prebuilt := Function.update settings.prebuilt .tools true }
  else if word = "--toolchain".toList then
    .ok { settings with prebuilt := Function.update settings.prebuilt .toolchain true }
  else if word = "-l".toList then .ok { settings with mirrorsUpdated := true }
  else if word = "-x".toList then .ok { settings with debug := true }
  else if word = "-h".toList ∨ word = "--help".toList then .error .help
  else
    match Command.all.find? (·.name = word) with
    | some command => .ok { settings with steps := settings.steps ++ [command] }
    | none => .error .failure

/-- `--tools-path` and `--toolchain-path` -/
def setPath (settings : Settings) (part : Part) (word : Word) : Settings :=
  { settings with
    prebuilt := Function.update settings.prebuilt part true
    tar := Function.update settings.tar part word }

/-- The options with an argument. -/
def setArgument (settings : Settings) (option : Word) : Option (Word → Except Exit Settings) :=
  if option = "--tools-path".toList then some fun word => .ok (setPath settings .tools word)
  else if option = "--toolchain-path".toList then
    some fun word => .ok (setPath settings .toolchain word)
  else if option = "-t".toList then some (setTarget settings)
  else if option = "-a".toList then
    some fun word => .ok { settings with buildArgs := settings.buildArgs ++ [word] }
  else if option = "-p".toList then some fun word => .ok { settings with publishBranch := word }
  else if option = "-o".toList then some fun word => .ok { settings with outputDir := word }
  else if option = "-s".toList then some fun word => .ok { settings with signKey := word }
  else none

/-- The loop over the arguments. The settings before it come from the configuration. -/
def parse (settings : Settings) : List Word → Except Exit Settings
  | [] => .ok settings
  | [word] =>
    match setArgument settings word with
    | some _ => .error .failure
    | none => setFlag settings word
  | word :: next :: rest =>
    match setArgument settings word with
    | some set => set next >>= (parse · rest)
    | none => setFlag settings word >>= (parse · (next :: rest))

/-- The commands that are run. -/
def Settings.commands (settings : Settings) : List Command :=
  if settings.steps = [] then defaultSteps else settings.steps

/-- A number by which the names of the commands are told apart. -/
private def key (word : Word) : ℕ := word.foldl (fun n c => 31 * n + c.toNat) 0

private theorem nodup_keys : (Command.all.map fun command => key command.name).Nodup := by
  decide +kernel

private theorem mem_all (command : Command) : command ∈ Command.all := by
  cases command <;> decide

private theorem name_injective {command command' : Command} (hname : command.name = command'.name) :
    command = command' :=
  List.inj_on_of_nodup_map nodup_keys (mem_all command) (mem_all command') (congrArg key hname)

private theorem find_name (command : Command) :
    Command.all.find? (·.name = command.name) = some command := by
  cases hfind : Command.all.find? (·.name = command.name) with
  | none => exact absurd (List.find?_eq_none.mp hfind command (mem_all command)) (by simp)
  | some found =>
    have hname := List.find?_some hfind
    rw [name_injective (of_decide_eq_true hname)]

/-- No command looks like an option. -/
private theorem name_ne_option (command : Command) {word : Word} (hword : word.head? = some '-') :
    command.name ≠ word := by
  have hhead : command.name.head? ≠ some '-' := by cases command <;> decide
  rintro rfl
  exact hhead hword

private theorem take_name_ne_option (command : Command) {word : Word}
    (hword : word.head? = some '-') : command.name.take 2 ≠ word := by
  intro htake
  rw [← htake, List.head?_take, if_neg (by decide)] at hword
  exact name_ne_option command hword rfl

private theorem setFlag_name (settings : Settings) (command : Command) :
    setFlag settings command.name = .ok { settings with steps := settings.steps ++ [command] } := by
  rw [setFlag, if_neg (name_ne_option command rfl), if_neg (take_name_ne_option command rfl),
    if_neg (take_name_ne_option command rfl), if_neg (name_ne_option command rfl),
    if_neg (name_ne_option command rfl), if_neg (name_ne_option command rfl),
    if_neg (name_ne_option command rfl),
    if_neg (not_or.mpr ⟨name_ne_option command rfl, name_ne_option command rfl⟩), find_name]

private theorem setArgument_name (settings : Settings) (command : Command) :
    setArgument settings command.name = none := by
  rw [setArgument, if_neg (name_ne_option command rfl), if_neg (name_ne_option command rfl),
    if_neg (name_ne_option command rfl), if_neg (name_ne_option command rfl),
    if_neg (name_ne_option command rfl), if_neg (name_ne_option command rfl),
    if_neg (name_ne_option command rfl)]

/-- Every list of commands can be given. -/
theorem parse_commands (settings : Settings) (commands : List Command) :
    parse settings (commands.map Command.name) =
      .ok { settings with steps := settings.steps ++ commands } := by
  induction commands generalizing settings with
  | nil => simp [parse]
  | cons command commands ih =>
    have hone (rest : List Word) : parse settings (command.name :: rest) =
        parse { settings with steps := settings.steps ++ [command] } rest := by
      cases rest with
      | nil => simp only [parse, setArgument_name, setFlag_name]
      | cons next rest =>
        simp only [parse, setArgument_name, setFlag_name]
        rfl
    rw [List.map_cons, hone, ih]
    simp

/-! ### The machine -/

/-- The targets of `_openwrt_make`. -/
inductive MakeTarget
  | download
  /-- `tools/compile` and `toolchain/compile` -/
  | part (part : Part)
  | target
  | packages
  | sdk
  | targetToolchain
  | index

/-- What runs outside the script. Everything can fail. -/
structure Machine (C : Type) where
  buildDir : Path
  /-- The place that a path on the command line leads to from the build directory. -/
  realpath : Word → Path
  /-- What `wget` gets from an address. -/
  wget : Word → Option C
  make : MakeTarget → Files C → Option (Files C)
  /-- The commands that run `git` and other programs only. -/
  other : Command → Files C → Option (Files C)
  /-- `scripts/ext-tools.sh` and `scripts/ext-toolchain.sh` -/
  extract : Part → C → Files C → Option (Files C)
  /-- Whether `.config` has `CONFIG_SDK=y`. -/
  configSdk : Files C → Bool
  /-- Whether `.config` has `CONFIG_MAKE_TOOLCHAIN=y`. -/
  configMakeToolchain : Files C → Bool

/-- What there is when the target or the packages are compiled. -/
structure Moment where
  prepared : Bool
  provided : Part → Bool

/-- An archive at the moment it is extracted. -/
structure Extraction (C : Type) where
  part : Part
  tar : Path
  /-- What the variable pointed to when the function was called. -/
  entry : Option C
  found : Option C

/-- The variables of the script and the files, with a record of the run. -/
structure State (C : Type) where
  prebuilt : Part → Bool
  tar : Part → Option Path
  files : Files C
  /-- The part was extracted or compiled since the last `clean`. -/
  provided : Part → Bool
  /-- `prepare_tools` was called. -/
  prepared : Bool
  moments : List Moment
  extractions : List (Extraction C)

variable {C : Type}

/-- The state before the first command. -/
def start (m : Machine C) (settings : Settings) (files : Files C) : State C where
  prebuilt := settings.prebuilt
  tar part := if settings.tar part = [] then none else some (m.realpath (settings.tar part))
  files := files
  provided _ := false
  prepared := false
  moments := []
  extractions := []

/-- A function of the script. If it fails, the script ends in the state it is in. -/
abbrev Step (C : Type) := State C → Except (State C) (State C)

/-- A program that changes files. -/
def perform (effect : Files C → Option (Files C)) : Step C := fun s =>
  match effect s.files with
  | some files => .ok { s with files := files }
  | none => .error s

/-- `rm -rf` -/
def removeTree (dir : Path) (files : Files C) : Files C := fun p =>
  if dir <+: p then none else files p

/-- A file stands where `mkdir -p` needs a directory. -/
def blocked (dir : Path) (files : Files C) : Bool := dir.inits.any fun p => (files p).isSome

/-- Some prebuilt part is used. -/
def State.anyPrebuilt (s : State C) : Bool := s.prebuilt .tools || s.prebuilt .toolchain

variable (m : Machine C) (settings : Settings)

/-- `compile_tools` and `compile_toolchain`. Both are skipped for either prebuilt part. -/
def compilePart (part : Part) : Step C := fun s =>
  if s.anyPrebuilt then .ok s
  else
    perform (m.make (.part part)) s >>= fun s =>
      .ok { s with provided := Function.update s.provided part true }

/-- `compile_tools` -/
def compileTools : Step C := compilePart m .tools

/-- `compile_toolchain` -/
def compileToolchain : Step C := compilePart m .toolchain

/-- A call of `make` of which the tools and the toolchain at that moment are recorded. -/
def compileAt (product : MakeTarget) : Step C := fun s =>
  perform (m.make product) { s with moments := s.moments ++ [⟨s.prepared, s.provided⟩] }

/-- `compile_target` -/
def compileTarget : Step C := compileAt m .target

/-- `compile_packages` -/
def compilePackages : Step C := compileAt m .packages

/-- `compile_SDK` -/
def compileSDK : Step C := fun s =>
  if s.anyPrebuilt then .ok s
  else if m.configSdk s.files then perform (m.make .sdk) s
  else .ok s

/-- `package_tools` -/
def packageTools : Step C := fun s =>
  if s.anyPrebuilt then .ok s else perform (m.other .packageTools) s

/-- `package_toolchain` -/
def packageToolchain : Step C := fun s =>
  if s.anyPrebuilt then .ok s
  else if m.configMakeToolchain s.files then perform (m.make .targetToolchain) s
  else .ok s

/-- The name of a part in file names. -/
def Part.name : Part → Word
  | tools => "tools".toList
  | toolchain => "toolchain".toList

/-- The directory of a prebuilt part. -/
def Machine.partDir (part : Part) : Path :=
  m.buildDir ++ ["prebuilt_toolchain".toList, part.name]

/-- The name of the archive on the server. -/
def dlName (part : Part) (board : Board) : Word :=
  part.name ++ "-".toList ++ board.name ++ "-x86_64.tar.zst".toList

/-- Its address. -/
def dlUrl (settings : Settings) (part : Part) (board : Board) : Word :=
  "https://repo.turris.cz/".toList ++ settings.publishBranch ++ "/".toList ++ board.name ++
    "/packages/".toList ++ dlName part board

/-- The archive is downloaded if there is no path for it. -/
def fetchTar (part : Part) (board : Board) : Step C := fun s =>
  match s.tar part with
  | some _ => .ok s
  | none =>
    match m.wget (dlUrl settings part board) with
    | none => .error s
    | some archive =>
      let path := m.partDir part ++ [dlName part board]
      .ok { s with
        files := Function.update s.files path (some archive)
        tar := Function.update s.tar part (some path) }

/-- The archive is extracted from where the variable points. -/
def extractTar (part : Part) (entry : Option C) : Step C := fun s =>
  match s.tar part with
  | none => .error s
  | some path =>
    let s := { s with extractions := s.extractions ++ [⟨part, path, entry, s.files path⟩] }
    match s.files path with
    | none => .error s
    | some archive =>
      perform (m.extract part archive) s >>= fun s =>
        .ok { s with provided := Function.update s.provided part true }

/-- `prebuilt_tools` and `prebuilt_toolchain` -/
def prebuiltPart (part : Part) : Step C := fun s =>
  let s := { s with prebuilt := Function.update s.prebuilt part true }
  match settings.targetBoard with
  | none => .error s
  | some board =>
    if blocked (m.partDir part) s.files then .error s
    else
      fetchTar m settings part board { s with files := removeTree (m.partDir part) s.files } >>=
        extractTar m part ((s.tar part).bind s.files)

/-- `prebuilt_tools` -/
def prebuiltTools : Step C := prebuiltPart m settings .tools

/-- `prebuilt_toolchain` -/
def prebuiltToolchain : Step C := prebuiltPart m settings .toolchain

/-- `compile` -/
def compile : Step C := fun s =>
  compileSDK m s >>= packageTools m >>= packageToolchain m >>= compilePackages m

/-- The directories that `clean` deletes. -/
def cleanDirs : List Word :=
  ["build_dir".toList, "tmp".toList, "staging_dir".toList, "logs".toList, "bin".toList]

/-- `clean` -/
def clean : Step C := fun s =>
  .ok { s with
    files := cleanDirs.foldl (fun files dir => removeTree (m.buildDir ++ [dir]) files) s.files
    provided := fun _ => false }

/-- `prepare` -/
def prepare : Step C := fun s =>
  perform (m.other .checkout) s >>= clean m >>= perform (m.other .patchOpenwrt) >>=
    perform (m.other .repatchFeeds) >>= perform (m.other .genVersion) >>=
    perform (m.other .configure) >>= perform (m.other .setCcache)

/-- `prepare_tools` -/
def prepareTools : Step C := fun s =>
  prepare m { s with prepared := true } >>=
    (fun s => if s.prebuilt .tools then prebuiltTools m settings s else compileTools m s) >>=
    (fun s =>
      if s.prebuilt .toolchain then prebuiltToolchain m settings s else compileToolchain m s) >>=
    compileTarget m

/-- One command. -/
def exec : Command → Step C
  | .prefetch => perform (m.make .download)
  | .compileTools => compileTools m
  | .compileToolchain => compileToolchain m
  | .compileTarget => compileTarget m
  | .compilePackages => compilePackages m
  | .compileSDK => compileSDK m
  | .packageTools => packageTools m
  | .packageToolchain => packageToolchain m
  | .prebuiltTools => prebuiltTools m settings
  | .prebuiltToolchain => prebuiltToolchain m settings
  | .compile => compile m
  | .sign => perform (m.make .index)
  | .clean => clean m
  | .prepare => prepare m
  | .prepareTools => prepareTools m settings
  | command => perform (m.other command)

/-- The loop over the commands. -/
def runSteps (commands : List Command) : Step C := fun s =>
  commands.foldlM (fun s command => exec m settings command s) s

/-- A run of the script after its arguments are read. -/
def compilePkgs (files : Files C) : Except (State C) (State C) :=
  runSteps m settings settings.commands (start m settings files)

/-! ### Invariants of the commands -/

/-- A property that the record of tools, toolchain and moments does not enter, and that the
programs, `clean` and the functions for prebuilt parts keep. -/
structure Keeps (m : Machine C) (settings : Settings) (inv : State C → Prop) : Prop where
  record : ∀ s provided prepared moments, inv s →
    inv { s with provided := provided, prepared := prepared, moments := moments }
  make : ∀ product, Preserves inv (perform (m.make product))
  other : ∀ command, Preserves inv (perform (m.other command))
  clean : Preserves inv (clean m)
  prebuiltPart : ∀ part, Preserves inv (prebuiltPart m settings part)

section Keeps

variable {m settings} {inv : State C → Prop}

private theorem Keeps.compilePart (hkeeps : Keeps m settings inv) (part : Part) :
    Preserves inv (compilePart m part) := by
  refine .ite (preserves_ok _) ((hkeeps.make _).bind ?_)
  intro s hs
  exact hkeeps.record s _ _ _ hs

private theorem Keeps.compileAt (hkeeps : Keeps m settings inv) (product : MakeTarget) :
    Preserves inv (compileAt m product) := by
  intro s hs
  exact hkeeps.make product _ (hkeeps.record s _ _ _ hs)

private theorem Keeps.compileSDK (hkeeps : Keeps m settings inv) :
    Preserves inv (compileSDK m) :=
  .ite (preserves_ok _) (.ite (hkeeps.make _) (preserves_ok _))

private theorem Keeps.packageTools (hkeeps : Keeps m settings inv) :
    Preserves inv (packageTools m) :=
  .ite (preserves_ok _) (hkeeps.other _)

private theorem Keeps.packageToolchain (hkeeps : Keeps m settings inv) :
    Preserves inv (packageToolchain m) :=
  .ite (preserves_ok _) (.ite (hkeeps.make _) (preserves_ok _))

private theorem Keeps.compile (hkeeps : Keeps m settings inv) : Preserves inv (compile m) :=
  ((hkeeps.compileSDK.bind hkeeps.packageTools).bind hkeeps.packageToolchain).bind
    (hkeeps.compileAt _)

private theorem Keeps.prepare (hkeeps : Keeps m settings inv) : Preserves inv (prepare m) :=
  ((((((hkeeps.other _).bind hkeeps.clean).bind (hkeeps.other _)).bind (hkeeps.other _)).bind
    (hkeeps.other _)).bind (hkeeps.other _)).bind (hkeeps.other _)

private theorem Keeps.prepareTools (hkeeps : Keeps m settings inv) :
    Preserves inv (prepareTools m settings) := by
  intro s hs
  refine (((hkeeps.prepare.bind ?_).bind ?_).bind (hkeeps.compileAt _)) _
    (hkeeps.record s _ _ _ hs)
  · exact .ite (hkeeps.prebuiltPart _) (hkeeps.compilePart _)
  · exact .ite (hkeeps.prebuiltPart _) (hkeeps.compilePart _)

/-- Such a property is kept by all commands. -/
theorem Keeps.exec (hkeeps : Keeps m settings inv) (command : Command) :
    Preserves inv (exec m settings command) := by
  cases command with
  | prefetch => exact hkeeps.make _
  | compileTools => exact hkeeps.compilePart _
  | compileToolchain => exact hkeeps.compilePart _
  | compileTarget => exact hkeeps.compileAt _
  | compilePackages => exact hkeeps.compileAt _
  | compileSDK => exact hkeeps.compileSDK
  | packageTools => exact hkeeps.packageTools
  | packageToolchain => exact hkeeps.packageToolchain
  | prebuiltTools => exact hkeeps.prebuiltPart _
  | prebuiltToolchain => exact hkeeps.prebuiltPart _
  | compile => exact hkeeps.compile
  | sign => exact hkeeps.make _
  | clean => exact hkeeps.clean
  | prepare => exact hkeeps.prepare
  | prepareTools => exact hkeeps.prepareTools
  | _ => exact hkeeps.other _

/-- Such a property holds where a run ends, if it holds before the first command. -/
theorem Keeps.compilePkgs (hkeeps : Keeps m settings inv) {files : Files C}
    (hstart : inv (start m settings files)) : inv (final (compilePkgs m settings files)) :=
  Preserves.foldlM hkeeps.exec settings.commands _ hstart

end Keeps

/-! ### A plain machine -/

/-- A machine on which everything succeeds and no file is changed. -/
def idleMachine : Machine Unit where
  buildDir := []
  realpath _ := []
  wget _ := some ()
  make _ files := some files
  other _ files := some files
  extract _ _ files := some files
  configSdk _ := true
  configMakeToolchain _ := true

/-- The settings without options. -/
def plainSettings : Settings where
  buildJobs := ['1']
  force := []
  prebuilt _ := false
  tar _ := []
  targetBoard := some .mox
  buildArgs := []
  publishBranch := "hbd".toList
  mirrorsUpdated := false
  outputDir := "./pkgsrepo".toList
  signKey := []
  debug := false
  steps := []

end TurrisBuild.CompilePkgs
