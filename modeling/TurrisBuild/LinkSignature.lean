import TurrisBuild.Lib.Jq
import TurrisBuild.Lib.Shell

/-!
# The link signature of a package

`gen-link-signature.sh` hashes a JSON document about all ELF files of a package.
A loop of the shell picks the ELF files by their first four bytes, and `jq` folds
the document from them in the order in which `find` emits them.
-/

namespace TurrisBuild.LinkSignature

/-- An entry of `DynamicSection`. -/
structure DynamicEntry where
  type : String
  library : String

/-- An entry of `DynamicSymbols`. -/
structure DynamicSymbol where
  name : String
  sectionName : String

/-- What `llvm-readelf` says about an ELF file. -/
structure ElfFile where
  dynamicSection : List DynamicEntry
  dynamicSymbols : List DynamicSymbol

/-- `[.DynamicSection[] | select(.Type == "NEEDED") | .Library]` -/
def ElfFile.libraries (file : ElfFile) : List String :=
  (file.dynamicSection.filter (·.type = "NEEDED")).map (·.library)

/-- `[.DynamicSymbols[].Symbol | select(...) | .Name.Name]` -/
def ElfFile.symbols (file : ElfFile) : List String :=
  (file.dynamicSymbols.filter fun s => s.sectionName = "Undefined" ∧ s.name ≠ "").map (·.name)

/-- The object that the filter builds for a file. -/
def ElfFile.members (file : ElfFile) : List (String × Jq.Value) :=
  [("libraries", .strings file.libraries), ("symbols", .strings file.symbols)]

/-- The result of `reduce`. -/
def reduceFiles (files : List ElfFile) : List (String × Jq.Value) :=
  files.foldl (fun members file => Jq.mergeMembers members file.members)
    [("libraries", .object []), ("symbols", .object [])]

/-- The document that is handed to `md5sum`, or nothing when `jq` fails. -/
def document (files : List ElfFile) : Option Jq.Value :=
  (Jq.mapValues Jq.sort (reduceFiles files)).map .object

/-! ### The loop over the files -/

/-- The first four bytes of an ELF file. -/
def elfMagic : List Char := ['\x7f', 'E', 'L', 'F']

/-- A regular file of the package, whose path `find` prints on a line, with what
`llvm-readelf` says about it. -/
structure PackageFile where
  path : List Char
  content : List Char
  readelf : Option ElfFile
  oneLine : '\n' ∉ path
  readelf_isSome : elfMagic <+: content → readelf.isSome

/-- What the script depends on besides the files: what the `printf` of the shell prints
for `\x7fELF`, into which words an unquoted path expands, and what `head -c4` prints for
some words, without the last newlines. -/
structure Environment where
  magic : List Char
  words : List Char → List (List Char)
  head : List (List Char) → List Char

/-- The test of the loop: the file is not skipped. -/
def Environment.takes (env : Environment) (file : PackageFile) : Bool :=
  env.head (env.words file.path) = env.magic

/-- What the loop hands to `jq`. -/
def Environment.readFiles (env : Environment) (files : List PackageFile) : List ElfFile :=
  files.filterMap fun file => if env.takes file then file.readelf else none

/-- `gen-link-signature.sh`: the document that is handed to `md5sum`. -/
def Environment.signedDocument (env : Environment) (files : List PackageFile) :
    Option Jq.Value :=
  document (env.readFiles files)

/-! ### What the signature is for -/

/-- A list of names in the order of `sort`. -/
def sorted (names : List String) : List String := names.insertionSort (· ≤ ·)

/-- The link interface of the whole package. -/
def linkInterface (files : List ElfFile) : Jq.Value :=
  .object [("libraries", .strings (sorted (files.flatMap ElfFile.libraries))),
    ("symbols", .strings (sorted (files.flatMap ElfFile.symbols)))]

/-- Whatever order the files come in, the document is the link interface. -/
def DescribesInterface (files : List ElfFile) : Prop :=
  ∀ order : List ElfFile, order.Perm files → document order = some (linkInterface files)

/-- The ELF files of a package. -/
def elfFiles (files : List PackageFile) : List ElfFile :=
  files.filterMap fun file => if elfMagic <+: file.content then file.readelf else none

/-- Whatever order `find` emits the files in, the document is the link interface of the
ELF files. -/
def Environment.Describes (env : Environment) (files : List PackageFile) : Prop :=
  ∀ order : List PackageFile, order.Perm files →
    env.signedDocument order = some (linkInterface (elfFiles files))

/-- The file alone has the libraries and the symbols of all of them. -/
def ElfFile.HasAll (file : ElfFile) (files : List ElfFile) : Prop :=
  file.libraries.Perm (files.flatMap ElfFile.libraries) ∧
    file.symbols.Perm (files.flatMap ElfFile.symbols)

/-- The shell expands the escape sequence, and every path is a single word, of whose
file `head` prints the beginning. -/
structure Environment.Ordinary (env : Environment) (files : List PackageFile) : Prop where
  magic : env.magic = elfMagic
  word : ∀ file ∈ files, env.words file.path = [file.path]
  head : ∀ file ∈ files, env.head [file.path] = Shell.commandSubstitution (file.content.take 4)

/-- The file needs nothing from any library. -/
def ElfFile.Unlinked (file : ElfFile) : Prop := file.libraries = [] ∧ file.symbols = []

/-! ### What the fold keeps -/

private theorem mergeMembers_members (members : List (String × Jq.Value)) (file : ElfFile)
    (hmembers : ∃ a b, members = [("libraries", a), ("symbols", b)]) :
    Jq.mergeMembers members file.members = file.members := by
  obtain ⟨a, b, rfl⟩ := hmembers
  cases a <;> cases b <;> rfl

private theorem foldl_mergeMembers {members : List (String × Jq.Value)} {files : List ElfFile}
    {file : ElfFile} (hmembers : ∃ a b, members = [("libraries", a), ("symbols", b)])
    (hlast : files.getLast? = some file) :
    files.foldl (fun members file => Jq.mergeMembers members file.members) members =
      file.members := by
  induction files generalizing members with
  | nil => simp at hlast
  | cons first files ih =>
    rw [List.foldl_cons, mergeMembers_members members first hmembers]
    cases files with
    | nil =>
      obtain rfl : first = file := by simpa using hlast
      rfl
    | cons second files => exact ih ⟨_, _, rfl⟩ (by simpa using hlast)

/-- The arrays of the last file replace those of all others. -/
theorem document_of_getLast {files : List ElfFile} {file : ElfFile}
    (hlast : files.getLast? = some file) :
    document files = some (.object [("libraries", .strings (sorted file.libraries)),
      ("symbols", .strings (sorted file.symbols))]) := by
  rw [document, reduceFiles, foldl_mergeMembers ⟨_, _, rfl⟩ hlast]
  rfl

/-- Without any file the initial objects cannot be sorted. -/
theorem document_nil : document [] = none := rfl

/-! ### When the document is the link interface -/

private theorem mem_sorted {name : String} {names : List String} :
    name ∈ sorted names ↔ name ∈ names := List.mem_insertionSort _

private theorem length_sorted (names : List String) : (sorted names).length = names.length :=
  List.length_insertionSort _ _

private theorem document_eq_iff {files order : List ElfFile} {file : ElfFile}
    (hlast : order.getLast? = some file) :
    document order = some (linkInterface files) ↔
      sorted file.libraries = sorted (files.flatMap ElfFile.libraries) ∧
        sorted file.symbols = sorted (files.flatMap ElfFile.symbols) := by
  simp [document_of_getLast hlast, linkInterface]

/-- An order of the files that ends in another file than the given one. -/
private theorem exists_order_ending_elsewhere {files : List ElfFile} {file : ElfFile}
    (hfile : file ∈ files) (hlen : files.length ≠ 1) :
    ∃ other rest, (file :: (rest ++ [other])).Perm files := by
  obtain ⟨before, after, rfl⟩ := List.append_of_mem hfile
  have hne : before ++ after ≠ [] := fun h => by
    obtain ⟨rfl, rfl⟩ := List.append_eq_nil_iff.mp h
    simp at hlen
  refine ⟨(before ++ after).getLast hne, (before ++ after).dropLast, ?_⟩
  rw [List.dropLast_append_getLast]
  exact List.perm_middle.symm

private theorem eq_nil_of_sorted_eq {names : ElfFile → List String} {files rest : List ElfFile}
    {file other : ElfFile} (hperm : (file :: (rest ++ [other])).Perm files)
    (heq : sorted (names other) = sorted (files.flatMap names)) : names file = [] := by
  have hlen := congrArg List.length heq
  have hflat := (hperm.flatMap_right names).length_eq
  simp only [length_sorted, List.flatMap_cons, List.flatMap_append, List.flatMap_nil,
    List.length_append, List.append_nil] at hlen hflat
  exact List.eq_nil_of_length_eq_zero (by omega)

/-- The document is the link interface exactly for a package with one ELF file,
or with several that are all unlinked. -/
theorem describesInterface_iff (files : List ElfFile) :
    DescribesInterface files ↔
      files.length = 1 ∨ (files ≠ [] ∧ ∀ file ∈ files, file.Unlinked) := by
  constructor
  · intro h
    by_cases hlen : files.length = 1
    · exact .inl hlen
    refine .inr ⟨?_, fun file hfile => ?_⟩
    · rintro rfl
      simpa [document_nil] using h [] (List.Perm.refl _)
    · obtain ⟨other, rest, hperm⟩ := exists_order_ending_elsewhere hfile hlen
      have hlast : (file :: (rest ++ [other])).getLast? = some other := by simp [List.getLast?_cons]
      obtain ⟨hlibraries, hsymbols⟩ := (document_eq_iff hlast).mp (h _ hperm)
      exact ⟨eq_nil_of_sorted_eq hperm hlibraries, eq_nil_of_sorted_eq hperm hsymbols⟩
  · rintro (hlen | ⟨hne, hunlinked⟩) order hperm
    · obtain ⟨file, rfl⟩ := List.length_eq_one_iff.mp hlen
      obtain rfl := List.perm_singleton.mp hperm
      simp [document_of_getLast, linkInterface]
    · have horder : order ≠ [] := fun h => hne (by simpa [h] using hperm)
      have hmem := hperm.subset (List.getLast_mem horder)
      have hlibraries : files.flatMap ElfFile.libraries = [] :=
        List.flatMap_eq_nil_iff.mpr fun file hfile => (hunlinked file hfile).1
      have hsymbols : files.flatMap ElfFile.symbols = [] :=
        List.flatMap_eq_nil_iff.mpr fun file hfile => (hunlinked file hfile).2
      rw [document_eq_iff (List.getLast?_eq_some_getLast horder), hlibraries, hsymbols]
      simp [hunlinked _ hmem |>.1, hunlinked _ hmem |>.2]

private theorem sorted_eq_iff {names others : List String} :
    sorted names = sorted others ↔ names.Perm others := by
  have hnames : (sorted names).Perm names := List.perm_insertionSort (· ≤ ·) names
  have hothers : (sorted others).Perm others := List.perm_insertionSort (· ≤ ·) others
  constructor
  · intro heq
    exact hnames.symm.trans (heq ▸ hothers)
  · intro hperm
    exact List.Perm.eq_of_sortedLE List.sortedLE_insertionSort List.sortedLE_insertionSort
      (hnames.trans (hperm.trans hothers.symm))

/-- The document is the link interface exactly when the loop takes a file, and each
file that it takes has the libraries and symbols of all ELF files. -/
theorem Environment.describes_iff (env : Environment) (files : List PackageFile) :
    env.Describes files ↔ env.readFiles files ≠ [] ∧
      ∀ file ∈ env.readFiles files, file.HasAll (elfFiles files) := by
  have hlast {order : List PackageFile} {file : ElfFile}
      (hfile : (env.readFiles order).getLast? = some file) :
      env.signedDocument order = some (linkInterface (elfFiles files)) ↔
        file.HasAll (elfFiles files) := by
    rw [Environment.signedDocument, document_eq_iff hfile, sorted_eq_iff, sorted_eq_iff]
    rfl
  constructor
  · intro hdescribes
    refine ⟨fun hnil => ?_, fun file hfile => ?_⟩
    · have hnone := hdescribes files (.refl _)
      rw [Environment.signedDocument, hnil, document_nil] at hnone
      cases hnone
    · -- The order in which this file comes last.
      obtain ⟨source, hsource, htaken⟩ := List.mem_filterMap.mp hfile
      obtain ⟨before, after, rfl⟩ := List.append_of_mem hsource
      have hperm : (before ++ after ++ [source]).Perm (before ++ source :: after) :=
        (List.perm_append_singleton source _).trans List.perm_middle.symm
      refine (hlast ?_).mp (hdescribes _ hperm)
      have hone : env.readFiles [source] = [file] := by
        simp only [Environment.readFiles, List.filterMap_cons, htaken, List.filterMap_nil]
      have happend : env.readFiles (before ++ after ++ [source]) =
          env.readFiles (before ++ after) ++ env.readFiles [source] := List.filterMap_append
      rw [happend, hone, List.getLast?_concat]
  · rintro ⟨hne, hall⟩ order hperm
    have hread : (env.readFiles order).Perm (env.readFiles files) := hperm.filterMap _
    have horder : env.readFiles order ≠ [] := fun h => hne (by simpa [h] using hread.symm)
    refine (hlast (List.getLast?_eq_some_getLast horder)).mpr (hall _ ?_)
    exact hread.subset (List.getLast_mem horder)

/-- Four bytes without their last newlines are the magic only if nothing was removed. -/
private theorem commandSubstitution_eq_magic_iff (content : List Char) :
    Shell.commandSubstitution (content.take 4) = elfMagic ↔ elfMagic <+: content := by
  constructor
  · intro heq
    have hprefix : elfMagic <+: content.take 4 := heq ▸ List.rdropWhile_prefix _ _
    exact hprefix.trans (List.take_prefix _ _)
  · rintro ⟨rest, rfl⟩
    rfl

/-- In an ordinary environment the loop takes the ELF files. -/
theorem Environment.Ordinary.readFiles_eq {env : Environment} {files : List PackageFile}
    (h : env.Ordinary files) : env.readFiles files = elfFiles files := by
  refine List.filterMap_congr fun file hfile => ?_
  have htakes : env.takes file = true ↔ elfMagic <+: file.content := by
    simp [Environment.takes, h.word file hfile, h.head file hfile, h.magic,
      commandSubstitution_eq_magic_iff]
  by_cases hmagic : elfMagic <+: file.content
  · rw [if_pos (htakes.mpr hmagic), if_pos hmagic]
  · rw [if_neg (mt htakes.mp hmagic), if_neg hmagic]

/-- Each file has the libraries and symbols of all exactly when there is one file, or
all of them are unlinked. -/
theorem hasAll_iff (files : List ElfFile) :
    (files ≠ [] ∧ ∀ file ∈ files, file.HasAll files) ↔
      files.length = 1 ∨ (files ≠ [] ∧ ∀ file ∈ files, file.Unlinked) := by
  rw [← describesInterface_iff]
  constructor
  · rintro ⟨hne, hall⟩ order hperm
    have horder : order ≠ [] := fun h => hne (by simpa [h] using hperm.symm)
    have hfile := hall _ (hperm.subset (List.getLast_mem horder))
    rw [document_eq_iff (List.getLast?_eq_some_getLast horder), sorted_eq_iff, sorted_eq_iff]
    exact hfile
  · intro hdescribes
    refine ⟨fun hnil => ?_, fun file hfile => ?_⟩
    · subst hnil
      simpa [document_nil] using hdescribes [] (.refl _)
    · obtain ⟨before, after, rfl⟩ := List.append_of_mem hfile
      have hperm : (before ++ after ++ [file]).Perm (before ++ file :: after) :=
        (List.perm_append_singleton file _).trans List.perm_middle.symm
      have hdocument := hdescribes _ hperm
      have hlast : (before ++ after ++ [file]).getLast? = some file := List.getLast?_concat
      rw [document_eq_iff hlast, sorted_eq_iff, sorted_eq_iff] at hdocument
      exact hdocument

/-- Documents that are link interfaces tell different interfaces apart. -/
theorem signedDocument_ne {env env' : Environment} {files others : List PackageFile}
    (hfiles : env.Describes files) (hothers : env'.Describes others)
    (hne : {l | l ∈ (elfFiles files).flatMap ElfFile.libraries} ≠
        {l | l ∈ (elfFiles others).flatMap ElfFile.libraries} ∨
      {s | s ∈ (elfFiles files).flatMap ElfFile.symbols} ≠
        {s | s ∈ (elfFiles others).flatMap ElfFile.symbols}) :
    env.signedDocument files ≠ env'.signedDocument others := by
  rw [hfiles files (List.Perm.refl _), hothers others (List.Perm.refl _)]
  intro heq
  simp only [linkInterface, Option.some.injEq, Jq.Value.object.injEq, List.cons.injEq,
    Prod.mk.injEq, Jq.Value.strings.injEq, true_and, and_true] at heq
  rcases hne with hne | hne
  · refine hne (Set.ext fun l => ?_)
    simp only [Set.mem_ofPred_eq]
    rw [← mem_sorted, heq.1, mem_sorted]
  · refine hne (Set.ext fun s => ?_)
    simp only [Set.mem_ofPred_eq]
    rw [← mem_sorted, heq.2, mem_sorted]

/-- **The signature.** The document is the link interface of the package in every
order of its files exactly when the loop takes a file and each one it takes has the
libraries and symbols of all ELF files. In an ordinary environment that means one ELF
file, or unlinked ones. Packages for which it is get different documents when their
libraries or symbols differ. -/
theorem link_signature_exact_iff (env : Environment) (files : List PackageFile) :
    (env.Describes files ↔ env.readFiles files ≠ [] ∧
      ∀ file ∈ env.readFiles files, file.HasAll (elfFiles files)) ∧
    (env.Ordinary files → (env.Describes files ↔ (elfFiles files).length = 1 ∨
      (elfFiles files ≠ [] ∧ ∀ file ∈ elfFiles files, file.Unlinked))) ∧
    ∀ (env' : Environment) (others : List PackageFile), env.Describes files →
      env'.Describes others →
      ({l | l ∈ (elfFiles files).flatMap ElfFile.libraries} ≠
          {l | l ∈ (elfFiles others).flatMap ElfFile.libraries} ∨
        {s | s ∈ (elfFiles files).flatMap ElfFile.symbols} ≠
          {s | s ∈ (elfFiles others).flatMap ElfFile.symbols}) →
      env.signedDocument files ≠ env'.signedDocument others := by
  refine ⟨env.describes_iff files, fun hordinary => ?_, fun _ _ => signedDocument_ne⟩
  rw [env.describes_iff, hordinary.readFiles_eq, hasAll_iff]

/-- A program that needs one library, and no symbol for the sake of the example. -/
def programNeeding (path : List Char) (library : String) (hpath : '\n' ∉ path) : PackageFile where
  path := path
  content := elfMagic
  readelf := some ⟨[⟨"NEEDED", library⟩], []⟩
  oneLine := hpath
  readelf_isSome _ := rfl

/-- A shell in whose eyes every path is one word of an ELF file. -/
def plainEnvironment : Environment where
  magic := elfMagic
  words path := [path]
  head _ := elfMagic

/-- A package with two programs. -/
def twoPrograms : List PackageFile :=
  [programNeeding "usr/sbin/ubusd".toList "libubus.so" (by decide),
    programNeeding "usr/bin/top".toList "libc.so" (by decide)]

/-- Of two programs only the library of the last one is in the document. -/
theorem document_drops_first_file :
    plainEnvironment.Ordinary twoPrograms ∧
    plainEnvironment.signedDocument twoPrograms =
      some (.object [("libraries", .strings ["libc.so"]), ("symbols", .strings [])]) ∧
    ¬plainEnvironment.Describes twoPrograms := by
  have hordinary : plainEnvironment.Ordinary twoPrograms :=
    ⟨rfl, fun _ _ => rfl, List.forall_mem_cons.mpr ⟨rfl, List.forall_mem_singleton.mpr rfl⟩⟩
  refine ⟨hordinary, rfl, ?_⟩
  rw [Environment.describes_iff, hordinary.readFiles_eq, hasAll_iff]
  rintro (hlength | ⟨-, hunlinked⟩)
  · exact absurd hlength (by decide)
  · have hnone := (hunlinked ⟨[⟨"NEEDED", "libubus.so"⟩], []⟩ List.mem_cons_self).1
    simp [ElfFile.libraries] at hnone

end TurrisBuild.LinkSignature
