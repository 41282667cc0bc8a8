import Mathlib.Data.List.Nodup
import TurrisBuild.GenerateMedkit
import TurrisBuild.Lib.Script

/-!
# The medkits of a board

`generate_medkits` has `generate_medkit.sh` make the medkits of a board one after the other, and
puts a link to the latest of a type, hashes of both names and signatures beside each of them. A
failure stops it.
-/

namespace TurrisBuild.Medkits

open GenerateMedkit (Word Settings)

/-- The variables after the loop over the arguments. -/
structure Options where
  board : Word
  branch : Word
  updaterBranch : Word
  signKey : Word

/-- The output of `date +%Y%m%d%H%M`. -/
structure Timestamp where
  digits : Word
  ne_nil : digits ≠ []
  isDigit : ∀ c ∈ digits, c.isDigit = true

/-! ### The types -/

/-- The types of medkits. -/
inductive Kind
  | medkit
  | factory
  | min
  | contractCti
  | netboot
  | contractShield
  | contractCznic
deriving DecidableEq

namespace Kind

/-- The first argument of `generate`. -/
def type : Kind → Word
  | medkit => "medkit".toList
  | factory => "medkit-factory".toList
  | min => "medkit-min".toList
  | contractCti => "medkit-contract-cti".toList
  | netboot => "netboot".toList
  | contractShield => "medkit-contract-shield".toList
  | contractCznic => "medkit-contract-cznic".toList

def datacollect : Word := "datacollect(survey|dynfw|fwlogs|minipot)".toList

/-- `"${PWD}/overlay"` -/
def overlay (pwd : Word) : Word := pwd ++ "/overlay".toList

/-- The other arguments of `generate`. -/
def args (pwd : Word) : Kind → List Word
  | medkit =>
    ["--lists".toList, datacollect, "--overlay".toList, overlay pwd, "--initial-config".toList]
  | factory =>
    ["--lists".toList, datacollect ++ ",infodump".toList, "--overlay".toList, overlay pwd,
      "--initial-config".toList]
  | min => ["--base".toList, "base-min".toList, "--lists".toList, [], "--localization".toList, []]
  | contractCti => ["--contract".toList, "cti".toList, "--initial-config".toList]
  | netboot => ["--base".toList, "base-netboot".toList]
  | contractShield => ["--contract".toList, "shield".toList, "--initial-config".toList]
  | contractCznic =>
    ["--lists".toList, datacollect, "--overlay".toList, overlay pwd, "--contract".toList,
      "cznic".toList, "--initial-config".toList]

end Kind

/-- The calls of `generate`. The dollar sign of `omnia$)` stands for itself. -/
def kinds (board : Word) : List Kind :=
  .medkit :: (if board = "omnia-ng".toList then [.factory] else []) ++
    .min :: (if board = "omnia$".toList then [.contractCti]
      else if board = "mox".toList then [.netboot, .contractShield] else []) ++
    if board ≠ "turris1x".toList then [.contractCznic] else []

/-! ### Commands -/

inductive Algorithm
  | md5
  | sha256
deriving DecidableEq

/-- The extension of a hash file. -/
def Algorithm.extension : Algorithm → Word
  | md5 => ".md5".toList
  | sha256 => ".sha256".toList

/-- The commands of `generate`. -/
inductive Command
  | generateMedkit (words : List Word) (file : Word)
  | ln (target file : Word)
  | sum (algorithm : Algorithm) (medkit : Word)
  | usign (key medkit : Word)

/-- The file that a command makes. -/
def Command.file : Command → Word
  | generateMedkit _ file => file
  | ln _ file => file
  | sum algorithm medkit => medkit ++ algorithm.extension
  | usign _ medkit => medkit ++ ".sig".toList

/-- `"$board-$type-$timestamp.tar.gz"`, where the timestamp may be `latest` -/
def fileName (board type timestamp : Word) : Word :=
  board ++ '-' :: type ++ '-' :: timestamp ++ ".tar.gz".toList

/-- `generate` -/
def generate (o : Options) (timestamp : Timestamp) (pwd : Word) (kind : Kind) : List Command :=
  let outputFile := fileName o.board kind.type timestamp.digits
  let latestFile := fileName o.board kind.type "latest".toList
  let args := kind.args pwd ++ ["--target".toList, o.board, "--branch".toList, o.branch] ++
    if o.updaterBranch.isEmpty then [] else ["--updater-branch".toList, o.updaterBranch]
  [.generateMedkit args outputFile, .ln outputFile latestFile] ++
    [outputFile, latestFile].flatMap (fun medkit => [.sum .md5 medkit, .sum .sha256 medkit]) ++
    if o.signKey.isEmpty then []
    else
      [.usign o.signKey outputFile,
        .ln (outputFile ++ ".sig".toList) (latestFile ++ ".sig".toList)]

/-- All commands. -/
def commands (o : Options) (timestamp : Timestamp) (pwd : Word) : List Command :=
  (kinds o.board).flatMap (generate o timestamp pwd)

/-! ### The output directory -/

section Run

variable {β : Type}

/-- The programs that make the medkits, hash and sign them. -/
structure Tools (β : Type) where
  /-- The end of `generate_medkit.sh`, where the updater installs the packages. -/
  build : Settings → Option β
  digest : Algorithm → β → Word
  /-- `usign -S`, with a key. -/
  sign : Word → β → Option Word

/-- What is in the output directory. A file that was only begun is incomplete. -/
inductive Entry (β : Type)
  | incomplete
  | medkit (data : β)
  | link (target : Word)
  | sum (algorithm : Algorithm) (digest medkit : Word)
  | signature (signature : Word)

/-- The output directory by the names in it. -/
abbrev Dir (β : Type) := Word → Option (Entry β)

/-- The directory is made anew. -/
def Dir.empty : Dir β := fun _ => none

/-- The medkit that a name leads to. -/
def Dir.read (dir : Dir β) (file : Word) : Option β :=
  match dir file with
  | some (.medkit data) => some data
  | some (.link target) =>
    match dir target with
    | some (.medkit data) => some data
    | _ => none
  | _ => none

/-- The output directory, as it was given and without links. -/
structure Place where
  path : Word
  real : Word

/-- The name of a path that is directly below a directory. -/
def nameIn (directory path : Word) : Option Word :=
  let slashed := directory ++ ['/']
  if slashed.isPrefixOf path ∧ '/' ∉ path.drop slashed.length then
    some (path.drop slashed.length)
  else none

/-- `readlink -f` of a path in the output directory, which has no directories. -/
def Place.readlink (place : Place) (dir : Dir β) (path : Word) : Option Word :=
  (nameIn place.path path).map fun file =>
    place.real ++ '/' ::
      match dir file with
      | some (.link target) => target
      | _ => file

variable (tools : Tools β) (place : Place)

def Command.run (command : Command) (dir : Dir β) : Option (Dir β) :=
  match command with
  | generateMedkit words file =>
    match GenerateMedkit.generate (place.readlink dir) (words ++ [place.path ++ '/' :: file]) with
    | .error _ => none
    | .ok s => do
      let data ← tools.build s
      let written ← nameIn place.real s.output
      some (Function.update dir written (some (.medkit data)))
  | ln target file => some (Function.update dir file (some (.link target)))
  | sum algorithm medkit => do
    let data ← dir.read medkit
    let digest := tools.digest algorithm data
    some (Function.update dir (medkit ++ algorithm.extension)
      (some (.sum algorithm digest medkit)))
  | usign key medkit => do
    let data ← dir.read medkit
    let signature ← tools.sign key data
    some (Function.update dir (medkit ++ ".sig".toList) (some (.signature signature)))

/-- A command that fails or is stopped may have begun its file. -/
def Command.begun (command : Command) (dir : Dir β) : Dir β :=
  match command with
  | ln _ _ => dir
  | _ => Function.update dir command.file (some .incomplete)

end Run

/-! ### What is published -/

/-- The settings of a type. -/
def Kind.settings (pwd : Word) : Kind → Settings
  | medkit =>
    { bootstrapPkglists := datacollect, overlay := overlay pwd, bootstrapInitialConfig := ['y'] }
  | factory =>
    { bootstrapPkglists := datacollect ++ ",infodump".toList, overlay := overlay pwd,
      bootstrapInitialConfig := ['y'] }
  | min => { bootstrapBase := "base-min".toList, bootstrapL10N := [] }
  | contractCti =>
    { bootstrapContract := "cti".toList, bootstrapInitialConfig := ['y'],
      defaultOutputExt := "-contract-cti".toList }
  | netboot => { bootstrapBase := "base-netboot".toList }
  | contractShield =>
    { bootstrapContract := "shield".toList, bootstrapInitialConfig := ['y'],
      defaultOutputExt := "-contract-shield".toList }
  | contractCznic =>
    { bootstrapPkglists := datacollect, overlay := overlay pwd,
      bootstrapContract := "cznic".toList, bootstrapInitialConfig := ['y'],
      defaultOutputExt := "-contract-cznic".toList }

/-- The files beside a medkit. -/
inductive Suffix
  | medkit
  | sum (algorithm : Algorithm)
  | sig
deriving DecidableEq

def Suffix.text : Suffix → Word
  | medkit => []
  | sum algorithm => algorithm.extension
  | sig => ".sig".toList

/-- A file of the output directory. -/
structure Key where
  kind : Kind
  latest : Bool
  suffix : Suffix
deriving DecidableEq

section Publish

variable (o : Options) (timestamp : Timestamp) (pwd : Word) {β : Type} (tools : Tools β)
  (place : Place)

/-- The name of a file. -/
def Key.file (key : Key) : Word :=
  fileName o.board key.kind.type (if key.latest then "latest".toList else timestamp.digits) ++
    key.suffix.text

/-- The settings of the options and the type, and the path of the medkit. -/
def wanted (kind : Kind) : Settings :=
  { kind.settings pwd with
    bootstrapBoard := o.board
    branch := o.branch
    bootstrapUpdaterBranch := o.updaterBranch
    bootstrapTestkey := if o.updaterBranch.isEmpty then [] else ['y']
    output := place.real ++ '/' :: Key.file o timestamp ⟨kind, false, .medkit⟩ }

/-- An entry is right: a link leads to a medkit or a signature, a hash is that of the medkit it
names, and a signature that of the medkit beside it. -/
def Fits (dir : Dir β) (file : Word) : Entry β → Prop
  | .incomplete => True
  | .medkit _ => True
  | .link target => (∃ data, dir target = some (.medkit data)) ∨
      ∃ signature, dir target = some (.signature signature)
  | .sum algorithm digest medkit => file = medkit ++ algorithm.extension ∧
      ∃ data, dir.read medkit = some data ∧ digest = tools.digest algorithm data
  | .signature signature => ∃ medkit data, file = medkit ++ ".sig".toList ∧
      dir medkit = some (.medkit data) ∧ tools.sign o.signKey data = some signature

/-- What is in the directory is right. -/
def Sound (dir : Dir β) : Prop := ∀ file e, dir file = some e → Fits o tools dir file e

/-- A medkit with the right settings is there, with all that belongs to it. -/
def Published (dir : Dir β) (kind : Kind) : Prop :=
  let name := fun latest suffix => Key.file o timestamp ⟨kind, latest, suffix⟩
  ∃ data, tools.build (wanted o timestamp pwd place kind) = some data ∧
    dir (name false .medkit) = some (.medkit data) ∧
    dir (name true .medkit) = some (.link (name false .medkit)) ∧
    (∀ latest algorithm, dir (name latest (.sum algorithm)) =
      some (.sum algorithm (tools.digest algorithm data) (name latest .medkit))) ∧
    if o.signKey.isEmpty then ∀ latest, dir (name latest .sig) = none
    else
      (∃ signature, tools.sign o.signKey data = some signature ∧
        dir (name false .sig) = some (.signature signature)) ∧
      dir (name true .sig) = some (.link (name false .sig))

/-- The medkit of a type can be made, and signed if there is a key. -/
def Makes (kind : Kind) : Prop :=
  ∃ data, tools.build (wanted o timestamp pwd place kind) = some data ∧
    (o.signKey.isEmpty = true ∨ (tools.sign o.signKey data).isSome = true)

/-- How the script ends that is not stopped: a medkit cannot be made or signed, or all are there and
nothing else. -/
def EndsRight : Option (Dir β) → Prop
  | none => ∃ kind ∈ kinds o.board, ¬Makes o timestamp pwd tools place kind
  | some dir => (∀ kind ∈ kinds o.board, Published o timestamp pwd tools place dir kind) ∧
      ∀ file, dir file ≠ none → ∃ key : Key, key.kind ∈ kinds o.board ∧ file = key.file o timestamp

end Publish

/-! ### Names -/

/-- The type of a name. -/
def Kind.ofType (type : Word) : Option Kind :=
  [medkit, factory, min, contractCti, netboot, contractShield, contractCznic].find?
    fun kind => kind.type = type

private theorem Kind.type_injective {kind kind' : Kind} (h : kind.type = kind'.type) :
    kind = kind' := by
  have hof : ∀ kind : Kind, Kind.ofType kind.type = some kind := by
    intro kind
    cases kind <;> decide
  have hsome := hof kind
  rw [h, hof kind'] at hsome
  exact (Option.some.inj hsome).symm

private theorem Timestamp.ne_latest (timestamp : Timestamp) (p q : Word) :
    p ++ timestamp.digits ≠ q ++ "latest".toList := by
  intro h
  have hlast := congrArg List.getLast? h
  rw [List.getLast?_append_of_ne_nil _ timestamp.ne_nil,
    List.getLast?_append_of_ne_nil _ (by decide)] at hlast
  have hdigit := timestamp.isDigit _ (List.mem_of_getLast? hlast)
  exact absurd hdigit (by decide)

private theorem Suffix.eq_of_append {suffix suffix' : Suffix} {p q : Word}
    (h : p ++ (".tar.gz".toList ++ suffix.text) = q ++ (".tar.gz".toList ++ suffix'.text)) :
    suffix = suffix' := by
  have hlast : ∀ (p : Word) (suffix : Suffix),
      (p ++ (".tar.gz".toList ++ suffix.text)).getLast? =
        (".tar.gz".toList ++ suffix.text).getLast? :=
    fun p suffix =>
      List.getLast?_append_of_ne_nil _ (List.append_ne_nil_of_left_ne_nil (by decide) _)
  have heq := congrArg List.getLast? h
  rw [hlast, hlast] at heq
  revert heq
  rcases suffix with - | (- | -) | - <;> rcases suffix' with - | (- | -) | - <;> decide

private theorem Key.file_injective (o : Options) (timestamp : Timestamp) {key key' : Key}
    (h : key.file o timestamp = key'.file o timestamp) : key = key' := by
  obtain ⟨kind, latest, suffix⟩ := key
  obtain ⟨kind', latest', suffix'⟩ := key'
  have hfile : ∀ key : Key, key.file o timestamp = o.board ++ ['-'] ++ (key.kind.type ++ ['-'] ++
      (if key.latest then "latest".toList else timestamp.digits)) ++
        (".tar.gz".toList ++ key.suffix.text) := by
    intro key
    simp only [Key.file, fileName, List.append_assoc, List.cons_append, List.nil_append]
  rw [hfile, hfile] at h
  obtain rfl : suffix = suffix' := Suffix.eq_of_append h
  have hversion := List.append_cancel_left (List.append_cancel_right h)
  obtain rfl : latest = latest' := by
    cases latest with
    | false =>
      cases latest' with
      | false => rfl
      | true => exact absurd hversion (timestamp.ne_latest _ _)
    | true =>
      cases latest' with
      | false => exact absurd hversion.symm (timestamp.ne_latest _ _)
      | true => rfl
  obtain rfl := Kind.type_injective (List.append_cancel_right (List.append_cancel_right hversion))
  rfl

/-! ### Settings -/

section Settings

variable {o : Options} {timestamp : Timestamp} {pwd : Word} {β : Type} {tools : Tools β}
  {place : Place} {dir : Dir β}

private theorem nameIn_eq {file : Word} (h : '/' ∉ file) (directory : Word) :
    nameIn directory (directory ++ '/' :: file) = some file := by
  have hslashed : directory ++ '/' :: file = (directory ++ ['/']) ++ file := by simp
  have hdrop : (directory ++ '/' :: file).drop (directory ++ ['/']).length = file := by
    rw [hslashed, List.drop_left]
  rw [nameIn, hdrop]
  refine if_pos ⟨?_, h⟩
  rw [hslashed, List.isPrefixOf_iff_prefix]
  exact List.prefix_append _ _

private theorem slash_not_mem_file (hboard : '/' ∉ o.board) (key : Key) :
    '/' ∉ key.file o timestamp := by
  have htype : '/' ∉ key.kind.type := by
    cases key.kind <;> decide
  have hsuffix : '/' ∉ key.suffix.text := by
    rcases key.suffix with - | (- | -) | - <;> decide
  have hversion : '/' ∉ if key.latest then "latest".toList else timestamp.digits := by
    split
    · decide
    · exact fun hmem => absurd (timestamp.isDigit _ hmem) (by decide)
  have hdash : '/' ≠ '-' := by decide
  have hext : '/' ∉ ".tar.gz".toList := by decide
  simp only [Key.file, fileName, List.mem_append, List.mem_cons, hboard, htype, hversion, hdash,
    hext, hsuffix, or_self, not_false_iff]

/-- A path is no option. -/
theorem optionOf_eq_none {word : Word} (h : '/' ∈ word) : GenerateMedkit.optionOf word = none := by
  refine List.lookup_eq_none_iff.mpr fun option hoption => bne_iff_ne.mpr ?_
  rintro rfl
  have hnone : ∀ option ∈ GenerateMedkit.optionWords, '/' ∉ option.1 := by decide
  exact hnone option hoption h

/-- The arguments of `generate_medkit.sh` before the path. -/
theorem parse_args (kind : Kind) (words : List Word) :
    GenerateMedkit.parse {} (kind.args pwd ++
        ["--target".toList, o.board, "--branch".toList, o.branch] ++
        (if o.updaterBranch.isEmpty then [] else ["--updater-branch".toList, o.updaterBranch]) ++
        words) =
      GenerateMedkit.parse
        { kind.settings pwd with
          bootstrapBoard := o.board
          branch := o.branch
          bootstrapUpdaterBranch := o.updaterBranch
          bootstrapTestkey := if o.updaterBranch.isEmpty then [] else ['y'] } words := by
  cases o.updaterBranch with
  | nil => cases kind <;> rfl
  | cons c cs => cases kind <;> rfl

/-- The first command of `generate`. -/
def Command.first (o : Options) (timestamp : Timestamp) (pwd : Word) (kind : Kind) : Command :=
  .generateMedkit (kind.args pwd ++ ["--target".toList, o.board, "--branch".toList, o.branch] ++
    if o.updaterBranch.isEmpty then [] else ["--updater-branch".toList, o.updaterBranch])
    (Key.file o timestamp ⟨kind, false, .medkit⟩)

private theorem run_generateMedkit (pwd : Word) (tools : Tools β) (place : Place)
    (hboard : '/' ∉ o.board) (hne : o.board ≠ []) {kind : Kind}
    (hfresh : dir (Key.file o timestamp ⟨kind, false, .medkit⟩) = none) :
    (Command.first o timestamp pwd kind).run tools place dir =
      (tools.build (wanted o timestamp pwd place kind)).map fun data =>
        Function.update dir (Key.file o timestamp ⟨kind, false, .medkit⟩)
          (some (.medkit data)) := by
  let file := Key.file o timestamp ⟨kind, false, .medkit⟩
  have hslash : '/' ∉ file := slash_not_mem_file hboard _
  have hpath : GenerateMedkit.optionOf (place.path ++ '/' :: file) = none :=
    optionOf_eq_none (by simp)
  have hread : place.readlink dir (place.path ++ '/' :: file) =
      some (place.real ++ '/' :: file) := by
    rw [Place.readlink, nameIn_eq hslash, Option.map_some, hfresh]
  have hsettings : GenerateMedkit.generate (place.readlink dir)
      ((kind.args pwd ++ ["--target".toList, o.board, "--branch".toList, o.branch] ++
        if o.updaterBranch.isEmpty then [] else ["--updater-branch".toList, o.updaterBranch]) ++
        [place.path ++ '/' :: file]) = .ok (wanted o timestamp pwd place kind) := by
    have houtput : (kind.settings pwd).output.isEmpty = true := by cases kind <;> rfl
    have hempty : (place.path ++ '/' :: file).isEmpty = false := by simp
    have hboard : o.board.isEmpty = false := by simpa using hne
    rw [GenerateMedkit.generate, parse_args, GenerateMedkit.parse_positional _ _ hpath,
      if_pos houtput, GenerateMedkit.parse.eq_def]
    simp only [hboard, hempty, Bool.false_eq_true, if_false, hread]
    rfl
  rw [Command.first, Command.run, hsettings]
  have hname : nameIn place.real (wanted o timestamp pwd place kind).output = some file :=
    nameIn_eq hslash place.real
  cases hbuild : tools.build (wanted o timestamp pwd place kind) with
  | none => simp [hbuild]
  | some data =>
    simp only [hbuild, hname, Option.bind_eq_bind, Option.bind_some, Option.map_some]
    rfl

end Settings

/-! ### Soundness -/

section Sound

variable {o : Options} {β : Type} {tools : Tools β} {place : Place} {dir dir' : Dir β}

/-- What a command needs. -/
def Ready (o : Options) (tools : Tools β) (place : Place) (command : Command) (dir : Dir β) :
    Prop :=
  dir command.file = none ∧
    match command with
    | .generateMedkit _ file => ∀ dir', command.run tools place dir = some dir' →
        ∃ data, dir' = Function.update dir file (some (.medkit data))
    | .ln target _ => (∃ data, dir target = some (.medkit data)) ∨
        ∃ sig, dir target = some (.signature sig)
    | .sum _ _ => True
    | .usign key medkit => key = o.signKey ∧ ∃ data, dir medkit = some (.medkit data)

private theorem Dir.read_mono (h : ∀ {file e}, dir file = some e → dir' file = some e) {file : Word}
    {data : β} (hread : dir.read file = some data) : dir'.read file = some data := by
  rw [Dir.read] at hread
  rw [Dir.read]
  cases hfile : dir file with
  | none =>
    rw [hfile] at hread
    cases hread
  | some e =>
    rw [hfile] at hread
    rw [h hfile]
    cases e with
    | medkit data' => exact hread
    | link target =>
      cases htarget : dir target with
      | none => simp [htarget] at hread
      | some e =>
        simp only [htarget] at hread
        simp only [h htarget]
        exact hread
    | incomplete => cases hread
    | sum algorithm digest medkit => cases hread
    | signature signature => cases hread

/-- A file keeps fitting when others are added. -/
theorem Fits.mono (h : ∀ {file e}, dir file = some e → dir' file = some e) {file : Word}
    {e : Entry β} (hfits : Fits o tools dir file e) : Fits o tools dir' file e := by
  cases e with
  | incomplete => trivial
  | medkit data => trivial
  | link target =>
    rcases hfits with ⟨data, hdata⟩ | ⟨sig, hsig⟩
    · exact .inl ⟨data, h hdata⟩
    · exact .inr ⟨sig, h hsig⟩
  | sum algorithm digest medkit =>
    obtain ⟨hfile, data, hread, hdigest⟩ := hfits
    exact ⟨hfile, data, Dir.read_mono h hread, hdigest⟩
  | signature signature =>
    obtain ⟨medkit, data, hfile, hmedkit, hsign⟩ := hfits
    exact ⟨medkit, data, hfile, h hmedkit, hsign⟩

/-- A new entry that is right. -/
theorem Sound.update (hsound : Sound o tools dir) {file : Word} (hfresh : dir file = none)
    (e : Entry β) (he : Fits o tools dir file e) :
    Sound o tools (Function.update dir file (some e)) := by
  have hmono : ∀ {file' e'}, dir file' = some e' →
      Function.update dir file (some e) file' = some e' := by
    intro file' e' h
    rw [Function.update_of_ne, h]
    rintro rfl
    rw [hfresh] at h
    cases h
  intro file' e' h
  rcases eq_or_ne file' file with rfl | hne
  · rw [Function.update_self] at h
    obtain rfl := Option.some.inj h
    exact he.mono hmono
  · rw [Function.update_of_ne hne] at h
    exact (hsound _ _ h).mono hmono

/-- A command that is ready keeps the directory sound. -/
theorem Sound.run {command : Command} (hsound : Sound o tools dir)
    (hready : Ready o tools place command dir) (hrun : command.run tools place dir = some dir') :
    Sound o tools dir' := by
  obtain ⟨hfresh, hready⟩ := hready
  cases command with
  | generateMedkit words file =>
    obtain ⟨data, rfl⟩ := hready dir' hrun
    exact hsound.update hfresh (.medkit data) trivial
  | ln target file =>
    obtain rfl := Option.some.inj hrun
    exact hsound.update hfresh (.link target) hready
  | sum algorithm medkit =>
    obtain ⟨data, hread, hsome⟩ := Option.bind_eq_some_iff.mp hrun
    obtain rfl := Option.some.inj hsome
    have hfits : Fits o tools dir (medkit ++ algorithm.extension)
        (.sum algorithm (tools.digest algorithm data) medkit) := ⟨rfl, data, hread, rfl⟩
    exact hsound.update hfresh _ hfits
  | usign key medkit =>
    obtain ⟨rfl, data', hmedkit⟩ := hready
    obtain ⟨data, hread, hsome⟩ := Option.bind_eq_some_iff.mp hrun
    obtain ⟨signature, hsign, hsome⟩ := Option.bind_eq_some_iff.mp hsome
    obtain rfl := Option.some.inj hsome
    obtain rfl : data' = data := by simpa [Dir.read, hmedkit] using hread
    have hfits : Fits o tools dir (medkit ++ ".sig".toList) (.signature signature) :=
      ⟨medkit, data', rfl, hmedkit, hsign⟩
    exact hsound.update hfresh _ hfits

/-- So does one that is cut off. -/
theorem Sound.begun {command : Command} (hsound : Sound o tools dir)
    (hready : Ready o tools place command dir) : Sound o tools (command.begun dir) := by
  cases command with
  | generateMedkit words file => exact hsound.update hready.1 .incomplete trivial
  | ln target file => exact hsound
  | sum algorithm medkit => exact hsound.update hready.1 .incomplete trivial
  | usign key medkit => exact hsound.update hready.1 .incomplete trivial

end Sound

/-! ### The commands for a type -/

section Generate

variable {o : Options} {timestamp : Timestamp} {pwd : Word} {β : Type} {tools : Tools β}
  {place : Place} {dir : Dir β}

private theorem update_file (key key' : Key) (e : Option (Entry β)) :
    Function.update dir (key.file o timestamp) e (key'.file o timestamp) =
      if key' = key then e else dir (key'.file o timestamp) := by
  split
  · next h => rw [h, Function.update_self]
  · next h => exact Function.update_of_ne (fun heq => h (Key.file_injective o timestamp heq)) _ _

private theorem file_append (kind : Kind) (latest : Bool) (suffix : Suffix) :
    Key.file o timestamp ⟨kind, latest, .medkit⟩ ++ suffix.text =
      Key.file o timestamp ⟨kind, latest, suffix⟩ := by
  rw [Key.file, Key.file, Suffix.text, List.append_nil]

/-- The commands by the names of their files. -/
theorem generate_eq (kind : Kind) :
    let name := fun latest suffix => Key.file o timestamp ⟨kind, latest, suffix⟩
    generate o timestamp pwd kind =
      [Command.first o timestamp pwd kind, .ln (name false .medkit) (name true .medkit),
        .sum .md5 (name false .medkit), .sum .sha256 (name false .medkit),
        .sum .md5 (name true .medkit), .sum .sha256 (name true .medkit)] ++
      if o.signKey.isEmpty then []
      else [.usign o.signKey (name false .medkit), .ln (name false .sig) (name true .sig)] := by
  have hname : ∀ latest, fileName o.board kind.type
      (if latest then "latest".toList else timestamp.digits) =
        Key.file o timestamp ⟨kind, latest, .medkit⟩ := by
    intro latest
    rw [Key.file, Suffix.text, List.append_nil]
  have hfalse := hname false
  have htrue := hname true
  have hsig : ∀ latest, Key.file o timestamp ⟨kind, latest, .medkit⟩ ++ ".sig".toList =
      Key.file o timestamp ⟨kind, latest, .sig⟩ := fun latest => file_append kind latest .sig
  simp only [Bool.false_eq_true, if_false, if_true] at hfalse htrue
  simp only [generate, hfalse, htrue, hsig]
  rfl

private theorem run_sum {kind : Kind} {latest : Bool} {data : β}
    (h : dir.read (Key.file o timestamp ⟨kind, latest, .medkit⟩) = some data)
    (algorithm : Algorithm) :
    (Command.sum algorithm (Key.file o timestamp ⟨kind, latest, .medkit⟩)).run tools place dir =
      some (Function.update dir (Key.file o timestamp ⟨kind, latest, .sum algorithm⟩)
        (some (.sum algorithm (tools.digest algorithm data)
          (Key.file o timestamp ⟨kind, latest, .medkit⟩)))) := by
  rw [← file_append kind latest (.sum algorithm), Command.run, h]
  rfl

/-- A medkit is found under both of its names. -/
theorem read_medkit {kind : Kind} {data : β}
    (hmedkit : dir (Key.file o timestamp ⟨kind, false, .medkit⟩) = some (.medkit data))
    (hlink : dir (Key.file o timestamp ⟨kind, true, .medkit⟩) =
      some (.link (Key.file o timestamp ⟨kind, false, .medkit⟩))) (latest : Bool) :
    dir.read (Key.file o timestamp ⟨kind, latest, .medkit⟩) = some data := by
  cases latest with
  | false => rw [Dir.read, hmedkit]
  | true =>
    rw [Dir.read, hlink]
    simp only [hmedkit]

/-- The file of a command for a type is new. -/
def Fresh (o : Options) (timestamp : Timestamp) (kind : Kind) (dir : Dir β) : Prop :=
  ∀ latest suffix, dir (Key.file o timestamp ⟨kind, latest, suffix⟩) = none

/-- The entries for a type before the signatures. -/
def hashed (o : Options) (timestamp : Timestamp) (tools : Tools β) (kind : Kind) (data : β)
    (dir : Dir β) : Dir β :=
  let name := fun latest suffix => Key.file o timestamp ⟨kind, latest, suffix⟩
  let sum := fun latest algorithm (dir : Dir β) =>
    Function.update dir (name latest (.sum algorithm))
      (some (.sum algorithm (tools.digest algorithm data) (name latest .medkit)))
  sum true .sha256 (sum true .md5 (sum false .sha256 (sum false .md5
    (Function.update (Function.update dir (name false .medkit) (some (.medkit data)))
      (name true .medkit) (some (.link (name false .medkit)))))))

private theorem wp_hashed (hboard : '/' ∉ o.board) (hne : o.board ≠ []) {kind : Kind} {fail : Prop}
    {post : Dir β → Prop} {commands : List Command} (hfresh : Fresh o timestamp kind dir)
    (hfail : tools.build (wanted o timestamp pwd place kind) = none → fail)
    (h : ∀ data, tools.build (wanted o timestamp pwd place kind) = some data →
      Script.Wp (Command.run tools place) (Ready o tools place) fail post commands
        (hashed o timestamp tools kind data dir)) :
    let name := fun latest suffix => Key.file o timestamp ⟨kind, latest, suffix⟩
    Script.Wp (Command.run tools place) (Ready o tools place) fail post
      ([Command.first o timestamp pwd kind, .ln (name false .medkit) (name true .medkit),
        .sum .md5 (name false .medkit), .sum .sha256 (name false .medkit),
        .sum .md5 (name true .medkit), .sum .sha256 (name true .medkit)] ++ commands) dir := by
  intro name
  have hrun := run_generateMedkit pwd tools place hboard hne (hfresh false .medkit)
  have hsum : ∀ (dir : Dir β) latest algorithm,
      dir (name latest (.sum algorithm)) = none →
      Ready o tools place (.sum algorithm (name latest .medkit)) dir := by
    intro dir latest algorithm h
    refine ⟨?_, trivial⟩
    rw [Command.file, ← h]
    exact congrArg dir (file_append kind latest (.sum algorithm))
  cases hbuild : tools.build (wanted o timestamp pwd place kind) with
  | none =>
    rw [hbuild, Option.map_none] at hrun
    refine Script.Wp.cons ⟨hfresh false .medkit, fun dir' h => ?_⟩ (fun dir' h => ?_) fun _ =>
      hfail hbuild
    · rw [hrun] at h
      cases h
    · rw [hrun] at h
      cases h
  | some data =>
    rw [hbuild, Option.map_some] at hrun
    refine Script.Wp.cons_of_eq ⟨hfresh false .medkit, fun dir' h => ⟨data, ?_⟩⟩ hrun ?_
    · rw [hrun] at h
      exact (Option.some.inj h).symm
    refine Script.Wp.cons_of_eq ⟨?_, .inl ⟨data, ?_⟩⟩ rfl ?_
    · simp [Command.file, name, update_file, hfresh true .medkit]
    · rw [Function.update_self]
    have hread : ∀ {dir : Dir β}, dir (name false .medkit) = some (.medkit data) →
        dir (name true .medkit) = some (.link (name false .medkit)) → ∀ latest,
          dir.read (name latest .medkit) = some data := read_medkit
    refine Script.Wp.cons_of_eq (hsum _ _ _ ?_) (run_sum (hread ?_ ?_ _) .md5) ?_
    · simp [name, update_file, hfresh _ _]
    · simp [name, update_file]
    · simp [name]
    refine Script.Wp.cons_of_eq (hsum _ _ _ ?_) (run_sum (hread ?_ ?_ _) .sha256) ?_
    · simp [name, update_file, hfresh _ _]
    · simp [name, update_file]
    · simp [name, update_file]
    refine Script.Wp.cons_of_eq (hsum _ _ _ ?_) (run_sum (hread ?_ ?_ _) .md5) ?_
    · simp [name, update_file, hfresh _ _]
    · simp [name, update_file]
    · simp [name, update_file]
    refine Script.Wp.cons_of_eq (hsum _ _ _ ?_) (run_sum (hread ?_ ?_ _) .sha256) ?_
    · simp [name, update_file, hfresh _ _]
    · simp [name, update_file]
    · simp [name, update_file]
    exact h data hbuild

section Hashed

variable {kind : Kind} {data : β}

private theorem hashed_medkit : hashed o timestamp tools kind data dir
    (Key.file o timestamp ⟨kind, false, .medkit⟩) = some (.medkit data) := by
  simp [hashed, update_file]

private theorem hashed_link : hashed o timestamp tools kind data dir
    (Key.file o timestamp ⟨kind, true, .medkit⟩) =
      some (.link (Key.file o timestamp ⟨kind, false, .medkit⟩)) := by
  simp [hashed, update_file]

private theorem hashed_sum (latest : Bool) (algorithm : Algorithm) :
    hashed o timestamp tools kind data dir
    (Key.file o timestamp ⟨kind, latest, .sum algorithm⟩) =
      some (.sum algorithm (tools.digest algorithm data)
        (Key.file o timestamp ⟨kind, latest, .medkit⟩)) := by
  cases latest <;> cases algorithm <;> simp [hashed, update_file]

private theorem hashed_sig (hfresh : Fresh o timestamp kind dir) (latest : Bool) :
    hashed o timestamp tools kind data dir (Key.file o timestamp ⟨kind, latest, .sig⟩) = none := by
  simp [hashed, update_file, hfresh latest .sig]

private theorem hashed_of_ne {key : Key} (h : key.kind ≠ kind) :
    hashed o timestamp tools kind data dir (key.file o timestamp) = dir (key.file o timestamp) := by
  have hne : ∀ latest suffix, key ≠ ⟨kind, latest, suffix⟩ := by
    rintro latest suffix rfl
    exact h rfl
  simp [hashed, update_file, hne]

private theorem file_of_hashed {file : Word}
    (h : hashed o timestamp tools kind data dir file ≠ none) :
    dir file ≠ none ∨ ∃ key : Key, key.kind = kind ∧ file = key.file o timestamp := by
  by_contra hnot
  rw [not_or, not_not, not_exists] at hnot
  have hne : ∀ latest suffix, file ≠ Key.file o timestamp ⟨kind, latest, suffix⟩ :=
    fun latest suffix heq => hnot.2 _ ⟨rfl, heq⟩
  refine h ?_
  simp [hashed, Function.update_of_ne, hne, hnot.1]

end Hashed

/-- The directory after the commands for a type. -/
structure After (o : Options) (timestamp : Timestamp) (pwd : Word) (tools : Tools β)
    (place : Place) (kind : Kind) (dir dir' : Dir β) : Prop where
  published : Published o timestamp pwd tools place dir' kind
  makes : Makes o timestamp pwd tools place kind
  frame : ∀ key : Key, key.kind ≠ kind → dir' (key.file o timestamp) = dir (key.file o timestamp)
  file_eq : ∀ file, dir' file ≠ none →
    dir file ≠ none ∨ ∃ key : Key, key.kind = kind ∧ file = key.file o timestamp

/-- The commands for a type make what they should, or fail because the medkit cannot be made. -/
theorem wp_generate (pwd : Word) (tools : Tools β) (place : Place)
    (hboard : '/' ∉ o.board) (hne : o.board ≠ []) {kind : Kind}
    (hfresh : Fresh o timestamp kind dir) :
    Script.Wp (Command.run tools place) (Ready o tools place)
      (¬Makes o timestamp pwd tools place kind)
      (After o timestamp pwd tools place kind dir) (generate o timestamp pwd kind) dir := by
  rw [generate_eq]
  refine wp_hashed hboard hne hfresh ?_ fun data hbuild => ?_
  · rintro hnone ⟨data, hbuild, -⟩
    rw [hnone] at hbuild
    cases hbuild
  split
  · next hkey =>
    refine ⟨⟨data, hbuild, hashed_medkit, hashed_link, hashed_sum, ?_⟩, ⟨data, hbuild, .inl hkey⟩,
      fun key => hashed_of_ne, fun file => file_of_hashed⟩
    rw [if_pos hkey]
    exact hashed_sig hfresh
  · next hkey =>
    have hread : (hashed o timestamp tools kind data dir).read
        (Key.file o timestamp ⟨kind, false, .medkit⟩) = some data :=
      read_medkit hashed_medkit hashed_link false
    have hready : Ready o tools place
        (.usign o.signKey (Key.file o timestamp ⟨kind, false, .medkit⟩))
        (hashed o timestamp tools kind data dir) := by
      refine ⟨?_, rfl, data, hashed_medkit⟩
      rw [Command.file, ← hashed_sig hfresh false]
      exact congrArg _ (file_append kind false .sig)
    cases hsign : tools.sign o.signKey data with
    | none =>
      have hrun : (Command.usign o.signKey (Key.file o timestamp ⟨kind, false, .medkit⟩)).run tools
          place (hashed o timestamp tools kind data dir) = none := by
        simp [Command.run, hread, hsign]
      refine Script.Wp.cons hready (fun dir' h => ?_) fun _ => ?_
      · rw [hrun] at h
        cases h
      · rintro ⟨data', hbuild', hsigned⟩
        obtain rfl := Option.some.inj (hbuild.symm.trans hbuild')
        rcases hsigned with hempty | hsome
        · exact hkey hempty
        · rw [hsign] at hsome
          cases hsome
    | some signature =>
      have hrun : (Command.usign o.signKey (Key.file o timestamp ⟨kind, false, .medkit⟩)).run tools
          place (hashed o timestamp tools kind data dir) =
            some (Function.update (hashed o timestamp tools kind data dir)
              (Key.file o timestamp ⟨kind, false, .sig⟩) (some (.signature signature))) := by
        have hsig : Key.file o timestamp ⟨kind, false, .medkit⟩ ++ ".sig".toList =
            Key.file o timestamp ⟨kind, false, .sig⟩ := file_append kind false .sig
        rw [Command.run, hread, hsig]
        simp [hsign]
      refine Script.Wp.cons_of_eq hready hrun
        (Script.Wp.cons_of_eq ⟨?_, .inr ⟨signature, ?_⟩⟩ rfl ?_)
      · simp [Command.file, update_file, hashed_sig hfresh]
      · rw [Function.update_self]
      have hsome : (tools.sign o.signKey data).isSome = true := by rw [hsign]; rfl
      refine ⟨⟨data, hbuild, ?_, ?_, fun latest algorithm => ?_, ?_⟩, ⟨data, hbuild, .inr hsome⟩,
        fun key h => ?_, fun file h => ?_⟩
      · simp [update_file, hashed_medkit]
      · simp [update_file, hashed_link]
      · simp [update_file, hashed_sum]
      · rw [if_neg hkey]
        exact ⟨⟨signature, hsign, by simp [update_file]⟩, by simp⟩
      · have hne : ∀ latest suffix, key ≠ ⟨kind, latest, suffix⟩ := by
          rintro latest suffix rfl
          exact h rfl
        simp [update_file, hne, hashed_of_ne h]
      · by_contra hnot
        rw [not_or, not_not, not_exists] at hnot
        have hne : ∀ latest suffix, file ≠ Key.file o timestamp ⟨kind, latest, suffix⟩ :=
          fun latest suffix heq => hnot.2 _ ⟨rfl, heq⟩
        rw [Function.update_of_ne (hne true .sig), Function.update_of_ne (hne false .sig)] at h
        exact (file_of_hashed h).elim (fun h => h hnot.1) fun ⟨key, hkey⟩ => hnot.2 key hkey

end Generate

/-! ### The whole script -/

section Run

variable {o : Options} {timestamp : Timestamp} {pwd : Word} {β : Type} {tools : Tools β}
  {place : Place} {dir : Dir β}

private theorem kinds_nodup (board : Word) : (kinds board).Nodup := by
  unfold kinds
  split_ifs <;> decide

/-- A published medkit depends on its own files only. -/
theorem Published.congr {kind : Kind} {dir' : Dir β}
    (h : ∀ latest suffix, dir' (Key.file o timestamp ⟨kind, latest, suffix⟩) =
      dir (Key.file o timestamp ⟨kind, latest, suffix⟩))
    (hpublished : Published o timestamp pwd tools place dir kind) :
    Published o timestamp pwd tools place dir' kind := by
  simpa only [Published, h] using hpublished

/-- What holds when some of the types are still to come. -/
structure Progress (o : Options) (timestamp : Timestamp) (pwd : Word) (tools : Tools β)
    (place : Place) (rest : List Kind) (dir : Dir β) : Prop where
  nodup : rest.Nodup
  subset : rest ⊆ kinds o.board
  fresh : ∀ kind ∈ rest, Fresh o timestamp kind dir
  published : ∀ kind ∈ kinds o.board, kind ∉ rest →
    Published o timestamp pwd tools place dir kind
  file_eq : ∀ file, dir file ≠ none →
    ∃ key : Key, key.kind ∈ kinds o.board ∧ file = key.file o timestamp

/-- In the beginning all kinds are still to come. -/
theorem Progress.start : Progress o timestamp pwd tools place (kinds o.board) Dir.empty where
  nodup := kinds_nodup o.board
  subset := List.Subset.refl _
  fresh _ _ _ _ := rfl
  published _ hmem hnot := absurd hmem hnot
  file_eq _ h := absurd rfl h

/-- One kind of medkit is done. -/
theorem Progress.step {kind : Kind} {rest : List Kind} {dir' : Dir β}
    (h : Progress o timestamp pwd tools place (kind :: rest) dir)
    (hafter : After o timestamp pwd tools place kind dir dir') :
    Progress o timestamp pwd tools place rest dir' where
  nodup := (List.nodup_cons.mp h.nodup).2
  subset := (List.cons_subset.mp h.subset).2
  fresh kind' hmem latest suffix := by
    have hne : kind' ≠ kind := by
      rintro rfl
      exact (List.nodup_cons.mp h.nodup).1 hmem
    rw [hafter.frame ⟨kind', latest, suffix⟩ hne]
    exact h.fresh kind' (List.mem_cons_of_mem _ hmem) latest suffix
  published kind' hmem hnot := by
    rcases eq_or_ne kind' kind with rfl | hne
    · exact hafter.published
    · refine (h.published kind' hmem ?_).congr fun latest suffix =>
        hafter.frame ⟨kind', latest, suffix⟩ hne
      rw [List.mem_cons, not_or]
      exact ⟨hne, hnot⟩
  file_eq file hfile := by
    rcases hafter.file_eq file hfile with hold | ⟨key, rfl, heq⟩
    · exact h.file_eq file hold
    · exact ⟨key, (List.cons_subset.mp h.subset).1, heq⟩

private theorem wp_commands (timestamp : Timestamp) (pwd : Word) (tools : Tools β) (place : Place)
    (hboard : '/' ∉ o.board) (hne : o.board ≠ []) :
    Script.Wp (Command.run tools place) (Ready o tools place)
      (∃ kind ∈ kinds o.board, ¬Makes o timestamp pwd tools place kind)
      (Progress o timestamp pwd tools place []) (commands o timestamp pwd) Dir.empty := by
  refine Script.Wp.loop (Progress o timestamp pwd tools place) ?_ Progress.start
  intro kind rest dir h
  have hkind := wp_generate pwd tools place hboard hne (h.fresh kind List.mem_cons_self)
  exact hkind.mono (fun hnot => ⟨kind, (List.cons_subset.mp h.subset).1, hnot⟩)
    fun dir' hafter => h.step hafter

/-- **The directory of medkits.** Wherever the script is stopped, links, hashes and signatures in
the directory are right. It fails only when a medkit of the board cannot be made or signed,
and else there is every one of them, made with the settings of its type and of the options. -/
theorem medkits_published (o : Options) (timestamp : Timestamp) (pwd : Word) (tools : Tools β)
    (place : Place) (hboard : '/' ∉ o.board) (hne : o.board ≠ []) :
    (∀ n, Sound o tools (Script.runFor (Command.run tools place) Command.begun
      (commands o timestamp pwd) n Dir.empty)) ∧
    EndsRight o timestamp pwd tools place
      (Script.runAll (Command.run tools place) (commands o timestamp pwd) Dir.empty) := by
  have hwp := wp_commands timestamp pwd tools place hboard hne
  constructor
  · have hempty : Sound o tools (Dir.empty : Dir β) := by
      intro file e h
      cases h
    exact hwp.runFor Sound.run Sound.begun hempty
  · rcases hwp.runAll with ⟨dir, hrun, hdir⟩ | ⟨hrun, hfail⟩
    · rw [hrun]
      exact ⟨fun kind hmem => hdir.published kind hmem List.not_mem_nil, hdir.file_eq⟩
    · rw [hrun]
      exact hfail

end Run

/-- A medkit is the settings that it is made with. -/
def plainTools : Tools Settings where
  build s := some s
  digest _ s := s.bootstrapBoard
  sign key _ := some key

def moxOptions : Options := ⟨"mox".toList, "hbs".toList, [], "key".toList⟩

def moxTimestamp : Timestamp := ⟨"202601011200".toList, by decide, by simp⟩

def moxPlace : Place := ⟨"generated_medkits".toList, "/root/generated_medkits".toList⟩

/-- The medkits of one board. -/
theorem medkits_published_mox :
    (∀ n, Sound moxOptions plainTools (Script.runFor (Command.run plainTools moxPlace) Command.begun
      (commands moxOptions moxTimestamp "/root".toList) n Dir.empty)) ∧
    EndsRight moxOptions moxTimestamp "/root".toList plainTools moxPlace
      (Script.runAll (Command.run plainTools moxPlace)
        (commands moxOptions moxTimestamp "/root".toList) Dir.empty) :=
  medkits_published moxOptions moxTimestamp "/root".toList plainTools moxPlace
    (by simp [moxOptions]) (by simp [moxOptions])

end TurrisBuild.Medkits
