import TurrisBuild.CheckPackages.Index

/-!
# Collisions between packages

`check_conflicts` of `helpers/check-packages.py` goes through the files that the
packages provide. Whenever a file has several owners, it looks at all pairs of them.
-/

namespace TurrisBuild.CheckPackages

open Outcome Python

/-- The lines of the control data of a package and of the checksums of its files. -/
structure Ipk where
  control : List (List Char)
  sums : List (List Char)

/-- What is read from a package. -/
structure Content where
  control : Attributes
  files : List (List Char)

/-- The first package that is yielded. -/
def nextPackage : List Attributes × Option Error → Except Error Attributes
  | (pkg :: _, _) => .ok pkg
  | ([], some e) => .error e
  | ([], none) => .error .stopIteration

/-- The file of a line with a checksum. -/
def sumFile (line : List Char) : Except Error (List Char) :=
  if ' ' ∈ line then .ok (strip (line.dropWhile (· ≠ ' ')).tail) else .error (.noFile line)

/-- The information from a package. -/
def pkgcontent (ipk : Ipk) : Except Error Content :=
  nextPackage (indexread ipk.control) >>= fun control =>
    ipk.sums.mapM sumFile >>= fun files => .ok ⟨control, files⟩

/-- The owners of the files. -/
abbrev Tree := List (List Char × List (List Char))

/-- A package is added to the set of owners of a file. -/
def addOwner (name : List Char) (tree : Tree) (file : List Char) : Tree :=
  setItem tree file (((tree.lookup file).getD []).insert name)

/-- A file of a package. -/
def addFile (control : Attributes) (tree : Tree) (file : List Char) : Except Error Tree :=
  match control.lookup "Package".toList with
  | none => .error (.missingKey "Package".toList)
  | some name => .ok (addOwner name tree file)

/-- All files of a package. -/
def addIpk (tree : Tree) (ipk : Ipk) : Except Error Tree :=
  pkgcontent ipk >>= fun content => content.files.foldlM (addFile content.control) tree

/-- The files that the packages provide and their owners. -/
def fstree (ipks : List Ipk) : Except Error Tree := ipks.foldlM addIpk []

/-- A directory with packages and index files, in the order in which they are found. -/
structure Repo where
  ipks : List Ipk
  indexes : List IndexFile

/-- The order in which the elements of the set of owners of a file come. -/
structure Enumeration where
  order : List Char → List (List Char) → List (List Char)
  perm : ∀ file owners, (order file owners).Perm owners

/-- The entry of a package in the index. -/
def getPackage (index : List (List Char × Package)) (name : List Char) : Except Error Package :=
  match index.lookup name with
  | none => .error (.missingKey name)
  | some package => .ok package

/-- Neither package lists the other one. The entry of the first package is only needed if
the second one does not list it. -/
def unlisted (index : List (List Char × Package)) (pkga pkgb : List Char) : Except Error Bool :=
  getPackage index pkgb >>= fun b =>
    if b.conflicts.contains pkga then .ok false
    else getPackage index pkga >>= fun a => .ok (!a.conflicts.contains pkgb)

/-- The messages and the result of the check. -/
structure Report where
  messages : List (List Char × List Char × List Char)
  res : Bool

/-- Two owners of a file are checked. -/
def checkPair (index : List (List Char × Package)) (report : Report)
    (pair : List Char × List Char × List Char) : Except Error Report :=
  unlisted index pair.1 pair.2.1 >>= fun collides =>
    .ok (if collides then ⟨report.messages ++ [pair], false⟩ else report)

/-- The pairs of owners of a file. -/
def ownerPairs (enum : Enumeration) (owners : List Char × List (List Char)) :
    List (List Char × List Char × List Char) :=
  if owners.2.length = 1 then []
  else (combinations (enum.order owners.1 owners.2)).map fun pair => (pair.1, pair.2, owners.1)

/-- The check for collisions of files between packages. -/
def checkConflicts (enum : Enumeration) (repo : Repo) : Except Error Report :=
  packages repo.indexes >>= fun index =>
    fstree repo.ipks >>= fun tree =>
      (tree.flatMap (ownerPairs enum)).foldlM (checkPair index) ⟨[], true⟩

/-! ### Packages and indexes that are written -/

/-- A file in the list of a package, which has its name behind a checksum. -/
structure ListedFile where
  checksum : List Char
  path : List Char
  noBlank_checksum : ' ' ∉ checksum
  oneLine_checksum : OneLine checksum
  oneLine_path : OneLine path

/-- The line of a file. -/
def ListedFile.line (file : ListedFile) : List Char := file.checksum ++ "  ".toList ++ file.path

/-- A package with given control data and files. -/
structure WrittenIpk where
  gap : ℕ
  blanks : ℕ
  stanza : Stanza
  closed : stanza.Closed
  files : List ListedFile

/-- The package as it is read. -/
def WrittenIpk.ipk (ipk : WrittenIpk) : Ipk where
  control := readlines (controlText ipk.gap ipk.blanks ipk.stanza)
  sums := readlines ((ipk.files.map ListedFile.line).flatMap (· ++ ['\n']))

/-- A directory with such packages and with index files. -/
structure WrittenRepo where
  ipks : List WrittenIpk
  indexes : List WrittenIndex
  closed : ∀ index ∈ indexes, ∀ stanza ∈ index.stanzas, stanza.Closed

/-- The directory as it is read. -/
def WrittenRepo.repo (repo : WrittenRepo) : Repo where
  ipks := repo.ipks.map WrittenIpk.ipk
  indexes := repo.indexes.map WrittenIndex.file

/-! ### What the check is to find -/

/-- The name stands in the text between commas, with at most white space around it. -/
def StandsIn (name text : List Char) : Prop :=
  strip name = name ∧ ',' ∉ name ∧ ∃ before left right after,
    text = before ++ (left ++ name ++ right) ++ after ∧
      (∀ c ∈ left, isSpace c = true) ∧ (∀ c ∈ right, isSpace c = true) ∧
      (before = [] ∨ before.getLast? = some ',') ∧ (after = [] ∨ after.head? = some ',')

section Collisions

variable (repo : WrittenRepo)

/-- The package with this name provides the file. -/
def WrittenRepo.Provides (name file : List Char) : Prop :=
  ∃ ipk ∈ repo.ipks, ipk.stanza.package = some name ∧ ∃ listed ∈ ipk.files, listed.path = file

/-- The package lists the other one in its conflicts. -/
def WrittenRepo.Lists (name other : List Char) : Prop :=
  ∃ index ∈ repo.indexes, ∃ stanza ∈ index.stanzas, stanza.package = some name ∧
    ∃ attr ∈ stanza.attributes, attr.name = "Conflicts".toList ∧ StandsIn other attr.value.text

/-- One of the packages lists the other one. -/
def WrittenRepo.Conflict (a b : List Char) : Prop := repo.Lists a b ∨ repo.Lists b a

/-- Of two packages that provide a common file one lists the other. -/
def WrittenRepo.Separated : Prop :=
  ∀ a b, a ≠ b → (∃ file, repo.Provides a file ∧ repo.Provides b file) → repo.Conflict a b

/-- The same of two packages with files whose names differ at most in the white space at
their ends. -/
def WrittenRepo.SeparatedStripped : Prop :=
  ∀ a b, a ≠ b → (∃ f g, repo.Provides a f ∧ repo.Provides b g ∧ strip f = strip g) →
    repo.Conflict a b

/-- There is an index of all packages, and those that are there are in it. -/
structure WrittenRepo.Indexed : Prop where
  readable : ∃ index, packages repo.repo.indexes = .ok index
  known : ∀ ipk ∈ repo.ipks, ∃ name, ipk.stanza.package = some name ∧
    ∃ index ∈ repo.indexes, ∃ stanza ∈ index.stanzas, stanza.package = some name

/-- The check ends with this result, in whatever order the owners of files come. -/
def WrittenRepo.Results (res : Bool) : Prop :=
  ∀ enum, ∃ report, checkConflicts enum repo.repo = .ok report ∧ report.res = res

end Collisions

/-- The same package with its files in another order. -/
def WrittenIpk.Alike (ipk ipk' : WrittenIpk) : Prop :=
  ipk.stanza = ipk'.stanza ∧ ipk.files.Perm ipk'.files

/-- The same packages and index files in another order, also of the files. -/
structure WrittenRepo.Reordered (repo repo' : WrittenRepo) : Prop where
  ipks : ∃ ipks, repo.ipks.Perm ipks ∧ List.Forall₂ WrittenIpk.Alike ipks repo'.ipks
  indexes : repo.indexes.Perm repo'.indexes

/-! ### What is read -/

private theorem ListedFile.oneLine (file : ListedFile) : OneLine file.line := by
  obtain ⟨hnewline, hreturn⟩ := file.oneLine_checksum
  obtain ⟨hnewline', hreturn'⟩ := file.oneLine_path
  constructor
  · simp [ListedFile.line, hnewline, hnewline']
  · simp [ListedFile.line, hreturn, hreturn']

/-- The name of the file is read, without the white space at its ends. -/
theorem sumFile_line (file : ListedFile) :
    sumFile (file.line ++ ['\n']) = .ok (strip file.path) := by
  have hline : file.line ++ ['\n'] = file.checksum ++ ' ' :: ([' '] ++ file.path ++ ['\n']) := by
    simp [ListedFile.line]
  have hskip : ∀ c ∈ file.checksum, decide (c ≠ ' ') = true := by
    intro c hc
    refine decide_eq_true ?_
    rintro rfl
    exact file.noBlank_checksum hc
  rw [hline, sumFile, if_pos (by simp), List.dropWhile_append_of_pos hskip,
    List.dropWhile_cons_of_neg (by simp), List.tail_cons,
    strip_append_append (by simp [isSpace]) (by simp [isSpace])]

/-- A package is read as it is meant, but for white space at the ends of names. -/
theorem pkgcontent_ipk (ipk : WrittenIpk) :
    pkgcontent ipk.ipk = .ok ⟨ipk.stanza.dict, ipk.files.map fun file => strip file.path⟩ := by
  have hsums : ipk.ipk.sums = ipk.files.map fun file => file.line ++ ['\n'] := by
    have hlines : ∀ line ∈ ipk.files.map ListedFile.line, OneLine line := by
      intro line hline
      obtain ⟨file, -, rfl⟩ := List.mem_map.mp hline
      exact file.oneLine
    rw [WrittenIpk.ipk, readlines_write hlines, List.map_map]
    rfl
  have hfiles : ipk.ipk.sums.mapM sumFile = .ok (ipk.files.map fun file => strip file.path) := by
    rw [hsums, mapM_eq_ok_iff, List.filterMap_map]
    constructor
    · intro line hline
      obtain ⟨file, -, rfl⟩ := List.mem_map.mp hline
      exact ⟨_, sumFile_line file⟩
    · rw [← List.filterMap_eq_map]
      refine List.filterMap_congr fun file _ => ?_
      rw [Function.comp_apply, Function.comp_apply, sumFile_line]
      rfl
  rw [pkgcontent, bind_eq_ok_iff]
  refine ⟨ipk.stanza.dict, ?_, bind_eq_ok_iff.mpr ⟨_, hfiles, rfl⟩⟩
  rw [WrittenIpk.ipk, indexread_controlText ipk.closed]
  rfl

/-- The conflicts that are read are the names between the commas. -/
theorem mem_conflictsOf_iff {stanza : Stanza} {other : List Char} :
    other ∈ conflictsOf stanza.dict ↔
      ∃ attr ∈ stanza.attributes, attr.name = "Conflicts".toList ∧
        StandsIn other attr.value.text := by
  have hnodup : (stanza.dict.map Prod.fst).Nodup := by
    rw [stanza.keys_dict]
    exact stanza.nodup
  have hentry (value : List Char) : stanza.dict.lookup "Conflicts".toList = some value ↔
      ∃ attr ∈ stanza.attributes, attr.name = "Conflicts".toList ∧ attr.value.text = value := by
    rw [lookup_eq_some_iff hnodup, Stanza.dict, List.mem_map]
    simp only [Prod.mk.injEq]
  have hstands (text : List Char) :
      other ∈ (text.splitOn ',').map strip ↔ StandsIn other text := by
    rw [List.mem_map]
    constructor
    · rintro ⟨piece, hpiece, hstrip⟩
      obtain ⟨hcomma, before, after, rfl, hbefore, hafter⟩ := mem_splitOn_iff.mp hpiece
      obtain ⟨hother, left, right, rfl, hleft, hright⟩ := strip_eq_iff.mp hstrip
      refine ⟨hother, fun hmem => hcomma (by simp [hmem]), before, left, right, after, rfl,
        hleft, hright, hbefore, hafter⟩
    · rintro ⟨hother, hcomma, before, left, right, after, rfl, hleft, hright, hbefore, hafter⟩
      refine ⟨left ++ other ++ right, mem_splitOn_iff.mpr ⟨?_, before, after, rfl, hbefore,
        hafter⟩, strip_eq_iff.mpr ⟨hother, left, right, rfl, hleft, hright⟩⟩
      simp only [List.mem_append, not_or]
      exact ⟨⟨fun hc => absurd (hleft _ hc) (by decide), hcomma⟩,
        fun hc => absurd (hright _ hc) (by decide)⟩
  unfold conflictsOf
  cases hlookup : stanza.dict.lookup "Conflicts".toList with
  | none =>
    refine iff_of_false List.not_mem_nil ?_
    rintro ⟨attr, hattr, hname, -⟩
    rw [(hentry attr.value.text).mpr ⟨attr, hattr, hname, rfl⟩] at hlookup
    cases hlookup
  | some value =>
    obtain ⟨attr, hattr, hname, rfl⟩ := (hentry value).mp hlookup
    refine (hstands _).trans ⟨fun h => ⟨attr, hattr, hname, h⟩, ?_⟩
    rintro ⟨attr', hattr', hname', h⟩
    rw [(hentry attr'.value.text).mpr ⟨attr', hattr', hname', rfl⟩] at hlookup
    rwa [Option.some.inj hlookup] at h

/-! ### The owners of the files -/

/-- The tree has each owner once. -/
structure Tree.Records (tree : Tree) (owns : List Char → List Char → Prop) : Prop where
  keys : (tree.map Prod.fst).Nodup
  owners : ∀ file owners, (file, owners) ∈ tree → owners.Nodup
  mem : ∀ name file, (∃ owners, (file, owners) ∈ tree ∧ name ∈ owners) ↔ owns name file

/-- The owners of a file that is looked up. -/
private theorem Tree.Records.owners_spec {tree : Tree} {owns : List Char → List Char → Prop}
    (htree : tree.Records owns) (file : List Char) :
    ((tree.lookup file).getD []).Nodup ∧
      ∀ name, name ∈ (tree.lookup file).getD [] ↔ owns name file := by
  cases hlookup : tree.lookup file with
  | none =>
    refine ⟨List.nodup_nil, fun name => iff_of_false List.not_mem_nil fun howns => ?_⟩
    obtain ⟨owners, hmem, -⟩ := (htree.mem name file).mpr howns
    rw [(lookup_eq_some_iff htree.keys).mpr hmem] at hlookup
    cases hlookup
  | some owners =>
    have hmem := (lookup_eq_some_iff htree.keys).mp hlookup
    refine ⟨htree.owners file owners hmem, fun name => ?_⟩
    rw [Option.getD_some, ← htree.mem name file]
    constructor
    · intro hname
      exact ⟨owners, hmem, hname⟩
    · rintro ⟨owners', hmem', hname⟩
      rw [(lookup_eq_some_iff htree.keys).mpr hmem'] at hlookup
      rwa [← Option.some.inj hlookup]

/-- One more owner of a file. -/
theorem Tree.Records.addOwner {tree : Tree} {owns : List Char → List Char → Prop}
    (htree : tree.Records owns) (name file : List Char) :
    Tree.Records (addOwner name tree file) fun n f => owns n f ∨ n = name ∧ f = file := by
  obtain ⟨hnodup, hold⟩ := htree.owners_spec file
  refine ⟨nodup_setItem htree.keys _ _, ?_, ?_⟩
  · intro f owners hf
    rcases (mem_setItem_iff htree.keys).mp hf with ⟨rfl, rfl⟩ | ⟨-, hf⟩
    · exact hnodup.insert
    · exact htree.owners f owners hf
  · intro n f
    simp only [CheckPackages.addOwner, mem_setItem_iff htree.keys]
    by_cases heq : f = file
    · subst heq
      simp [hold, or_comm]
    · simp [heq, htree.mem]

/-- The files of a package. -/
private theorem Tree.Records.addFiles {control : Attributes} {name : List Char}
    (hname : control.lookup "Package".toList = some name) (files : List (List Char)) {tree : Tree}
    {owns : List Char → List Char → Prop} (htree : tree.Records owns) :
    ∃ tree', files.foldlM (addFile control) tree = .ok tree' ∧
      tree'.Records fun n f => owns n f ∨ n = name ∧ f ∈ files := by
  induction files generalizing tree owns with
  | nil => exact ⟨tree, rfl, by simpa using htree⟩
  | cons file files ih =>
    obtain ⟨tree', hfold, hrecords⟩ := ih (htree.addOwner name file)
    refine ⟨tree', ?_, ?_⟩
    · rw [List.foldlM_cons, bind_eq_ok_iff]
      exact ⟨_, by rw [addFile, hname], hfold⟩
    · convert hrecords using 3 with n f
      rw [List.mem_cons, or_assoc, ← and_or_left]

/-- The owner of a file that is read. -/
def WrittenRepo.Owns (repo : WrittenRepo) (name file : List Char) : Prop :=
  ∃ ipk ∈ repo.ipks, ipk.stanza.package = some name ∧
    file ∈ ipk.files.map fun listed => strip listed.path

/-- The files of all packages. -/
private theorem Tree.Records.addIpks {ipks : List WrittenIpk}
    (hnamed : ∀ ipk ∈ ipks, ∃ name, ipk.stanza.package = some name) {tree : Tree}
    {owns : List Char → List Char → Prop} (htree : tree.Records owns) :
    ∃ tree', (ipks.map WrittenIpk.ipk).foldlM addIpk tree = .ok tree' ∧
      tree'.Records fun n f => owns n f ∨ ∃ ipk ∈ ipks, ipk.stanza.package = some n ∧
        f ∈ ipk.files.map fun listed => strip listed.path := by
  induction ipks generalizing tree owns with
  | nil => exact ⟨tree, rfl, by simpa using htree⟩
  | cons ipk ipks ih =>
    obtain ⟨⟨name, hname⟩, hnamed⟩ := List.forall_mem_cons.mp hnamed
    obtain ⟨tree₁, hfiles, htree₁⟩ :=
      htree.addFiles hname (ipk.files.map fun listed => strip listed.path)
    obtain ⟨tree₂, hipks, htree₂⟩ := ih hnamed htree₁
    refine ⟨tree₂, ?_, ?_⟩
    · rw [List.map_cons, List.foldlM_cons, bind_eq_ok_iff]
      exact ⟨tree₁, bind_eq_ok_iff.mpr ⟨_, pkgcontent_ipk ipk, hfiles⟩, hipks⟩
    · have hfirst (n : List Char) : ipk.stanza.package = some n ↔ n = name := by
        rw [hname, Option.some.injEq, eq_comm]
      simpa only [List.exists_mem_cons_iff, hfirst, or_assoc] using htree₂

/-- The tree has the owners of all files. -/
theorem fstree_spec {repo : WrittenRepo}
    (hnamed : ∀ ipk ∈ repo.ipks, ∃ name, ipk.stanza.package = some name) :
    ∃ tree, fstree repo.repo.ipks = .ok tree ∧ tree.Records repo.Owns := by
  have hnil : Tree.Records [] fun _ _ => False := ⟨List.nodup_nil, by simp, by simp⟩
  obtain ⟨tree, hfold, htree⟩ := hnil.addIpks hnamed
  simp only [false_or] at htree
  exact ⟨tree, hfold, htree⟩

/-! ### The pairs of owners -/

/-- Files with one owner have no pairs anyway. -/
private theorem ownerPairs_eq (enum : Enumeration) (file : List Char)
    (owners : List (List Char)) :
    ownerPairs enum (file, owners) =
      (combinations (enum.order file owners)).map fun pair => (pair.1, pair.2, file) := by
  unfold ownerPairs
  split
  next hone =>
    obtain ⟨owner, rfl⟩ := List.length_eq_one_iff.mp hone
    rw [List.perm_singleton.mp (enum.perm file [owner])]
    rfl
  next => rfl

/-- Every two owners of a file are a pair, in one order. -/
theorem mem_ownerPairs {tree : Tree} {owns : List Char → List Char → Prop}
    (htree : tree.Records owns) (enum : Enumeration) {a b file : List Char} :
    (a, b, file) ∈ tree.flatMap (ownerPairs enum) ∨ (b, a, file) ∈ tree.flatMap (ownerPairs enum) ↔
      a ≠ b ∧ owns a file ∧ owns b file := by
  have hpairs (x y : List Char) : (x, y, file) ∈ tree.flatMap (ownerPairs enum) ↔
      ∃ owners, (file, owners) ∈ tree ∧ (x, y) ∈ combinations (enum.order file owners) := by
    rw [List.mem_flatMap]
    constructor
    · rintro ⟨⟨f, owners⟩, hmem, hpair⟩
      rw [ownerPairs_eq, List.mem_map] at hpair
      obtain ⟨⟨x', y'⟩, hpair, heq⟩ := hpair
      obtain ⟨rfl, rfl, rfl⟩ := by simpa using heq
      exact ⟨owners, hmem, hpair⟩
    · rintro ⟨owners, hmem, hpair⟩
      refine ⟨(file, owners), hmem, ?_⟩
      rw [ownerPairs_eq]
      exact List.mem_map.mpr ⟨(x, y), hpair, rfl⟩
  have hnodup (owners : List (List Char)) (hmem : (file, owners) ∈ tree) :
      (enum.order file owners).Nodup :=
    (enum.perm file owners).nodup_iff.mpr (htree.owners file owners hmem)
  rw [hpairs, hpairs, ← exists_or, ← htree.mem, ← htree.mem]
  constructor
  · rintro ⟨owners, hpair⟩
    rw [← and_or_left] at hpair
    obtain ⟨hmem, hpair⟩ := hpair
    obtain ⟨hne, ha, hb⟩ := (mem_combinations (hnodup owners hmem)).mp hpair
    have hperm := enum.perm file owners
    exact ⟨hne, ⟨owners, hmem, hperm.mem_iff.mp ha⟩, ⟨owners, hmem, hperm.mem_iff.mp hb⟩⟩
  · rintro ⟨hne, ⟨owners, hmem, ha⟩, ⟨owners', hmem', hb⟩⟩
    have hsame : owners' = owners := by
      have hlookup := (lookup_eq_some_iff htree.keys).mpr hmem
      rw [(lookup_eq_some_iff htree.keys).mpr hmem'] at hlookup
      exact Option.some.inj hlookup
    subst hsame
    have hperm := enum.perm file owners'
    refine ⟨owners', ?_⟩
    rw [← and_or_left]
    exact ⟨hmem, (mem_combinations (hnodup owners' hmem)).mpr
      ⟨hne, hperm.mem_iff.mpr ha, hperm.mem_iff.mpr hb⟩⟩

/-! ### The check -/

section Check

variable {repo : WrittenRepo} {index : List (List Char × Package)}

/-- The names in the index are those of the stanzas. -/
private theorem mem_names_iff (hindex : packages repo.repo.indexes = .ok index)
    {name : List Char} :
    name ∈ index.map Prod.fst ↔
      ∃ file ∈ repo.indexes, ∃ stanza ∈ file.stanzas, stanza.package = some name := by
  rw [List.mem_map]
  constructor
  · rintro ⟨⟨_, package⟩, hmem, rfl⟩
    obtain ⟨file, hfile, stanza, hstanza, hname, -⟩ :=
      (mem_packages_iff repo.closed hindex).mp hmem
    exact ⟨file, hfile, stanza, hstanza, hname⟩
  · rintro ⟨file, hfile, stanza, hstanza, hname⟩
    exact ⟨(name, _), (mem_packages_iff repo.closed hindex).mpr
      ⟨file, hfile, stanza, hstanza, hname, rfl⟩, rfl⟩

private theorem getPackage_eq (hindex : packages repo.repo.indexes = .ok index)
    {name : List Char} {package : Package} (hmem : (name, package) ∈ index) :
    getPackage index name = .ok package ∧
      ∀ other, repo.Lists name other ↔ other ∈ package.conflicts := by
  have hnodup := (packages_eq_ok_iff.mp hindex).2.2
  have hlookup := (lookup_eq_some_iff hnodup).mpr hmem
  refine ⟨by rw [getPackage, hlookup], fun other => ⟨?_, fun hother => ?_⟩⟩
  · rintro ⟨file, hfile, stanza, hstanza, hname, hstands⟩
    have hentry := (mem_packages_iff repo.closed hindex).mpr
      ⟨file, hfile, stanza, hstanza, hname, rfl⟩
    rw [(lookup_eq_some_iff hnodup).mpr hentry] at hlookup
    rw [← Option.some.inj hlookup]
    exact mem_conflictsOf_iff.mpr hstands
  · obtain ⟨file, hfile, stanza, hstanza, hname, rfl⟩ :=
      (mem_packages_iff repo.closed hindex).mp hmem
    exact ⟨file, hfile, stanza, hstanza, hname, mem_conflictsOf_iff.mp hother⟩

/-- Two packages of the index collide exactly when neither lists the other one. -/
theorem unlisted_spec (hindex : packages repo.repo.indexes = .ok index) {a b : List Char}
    (ha : a ∈ index.map Prod.fst) (hb : b ∈ index.map Prod.fst) :
    ∃ collides, unlisted index a b = .ok collides ∧ (collides = false ↔ repo.Conflict a b) := by
  obtain ⟨⟨a, pkga⟩, hmema, rfl⟩ := List.mem_map.mp ha
  obtain ⟨⟨b, pkgb⟩, hmemb, rfl⟩ := List.mem_map.mp hb
  obtain ⟨hgeta, hlistsa⟩ := getPackage_eq hindex hmema
  obtain ⟨hgetb, hlistsb⟩ := getPackage_eq hindex hmemb
  simp only [unlisted, bind_eq_ok_iff, WrittenRepo.Conflict, hlistsa, hlistsb]
  by_cases hlisted : a ∈ pkgb.conflicts
  · exact ⟨false, ⟨pkgb, hgetb, if_pos (List.contains_iff_mem.mpr hlisted)⟩, by simp [hlisted]⟩
  · refine ⟨!pkga.conflicts.contains b, ⟨pkgb, hgetb, ?_⟩, by simp [hlisted]⟩
    rw [if_neg (mt List.contains_iff_mem.mp hlisted), bind_eq_ok_iff]
    exact ⟨pkga, hgeta, rfl⟩

/-- The loop over the pairs. -/
private theorem foldlM_checkPair (hindex : packages repo.repo.indexes = .ok index)
    {pairs : List (List Char × List Char × List Char)}
    (hpairs : ∀ pair ∈ pairs, pair.1 ∈ index.map Prod.fst ∧ pair.2.1 ∈ index.map Prod.fst)
    (report : Report) :
    ∃ report', pairs.foldlM (checkPair index) report = .ok report' ∧
      (report'.res = true ↔ report.res = true ∧
        ∀ pair ∈ pairs, repo.Conflict pair.1 pair.2.1) := by
  induction pairs generalizing report with
  | nil => exact ⟨report, rfl, by simp⟩
  | cons pair pairs ih =>
    obtain ⟨⟨ha, hb⟩, hpairs⟩ := List.forall_mem_cons.mp hpairs
    obtain ⟨collides, hunlisted, hcollides⟩ := unlisted_spec hindex ha hb
    obtain ⟨report', hfold, hres⟩ :=
      ih hpairs (if collides then ⟨report.messages ++ [pair], false⟩ else report)
    refine ⟨report', ?_, ?_⟩
    · rw [List.foldlM_cons, bind_eq_ok_iff]
      exact ⟨_, bind_eq_ok_iff.mpr ⟨collides, hunlisted, rfl⟩, hfold⟩
    · rw [hres, List.forall_mem_cons, ← hcollides]
      cases collides with
      | false => simp
      | true => simp

private theorem WrittenRepo.exists_owns_iff {a b : List Char} :
    (∃ file, repo.Owns a file ∧ repo.Owns b file) ↔
      ∃ f g, repo.Provides a f ∧ repo.Provides b g ∧ strip f = strip g := by
  constructor
  · rintro ⟨_, ⟨ipk, hipk, hname, hfile⟩, ipk', hipk', hname', hfile'⟩
    obtain ⟨listed, hlisted, rfl⟩ := List.mem_map.mp hfile
    obtain ⟨listed', hlisted', heq⟩ := List.mem_map.mp hfile'
    exact ⟨_, _, ⟨ipk, hipk, hname, listed, hlisted, rfl⟩,
      ⟨ipk', hipk', hname', listed', hlisted', rfl⟩, heq.symm⟩
  · rintro ⟨_, _, ⟨ipk, hipk, hname, listed, hlisted, rfl⟩,
      ⟨ipk', hipk', hname', listed', hlisted', rfl⟩, heq⟩
    exact ⟨_, ⟨ipk, hipk, hname, List.mem_map.mpr ⟨listed, hlisted, rfl⟩⟩,
      ipk', hipk', hname', List.mem_map.mpr ⟨listed', hlisted', heq.symm⟩⟩

/-- What the check finds. -/
theorem checkConflicts_spec (hrepo : repo.Indexed) (enum : Enumeration) :
    ∃ report, checkConflicts enum repo.repo = .ok report ∧
      (report.res = true ↔ repo.SeparatedStripped) := by
  obtain ⟨index, hindex⟩ := hrepo.readable
  obtain ⟨tree, hfstree, htree⟩ := fstree_spec fun ipk hipk =>
    (hrepo.known ipk hipk).imp fun _ h => h.1
  have hknown {name file : List Char} (howns : repo.Owns name file) :
      name ∈ index.map Prod.fst := by
    obtain ⟨ipk, hipk, hname, -⟩ := howns
    obtain ⟨name', hname', hmem⟩ := hrepo.known ipk hipk
    rw [hname] at hname'
    rw [Option.some.inj hname']
    exact (mem_names_iff hindex).mpr hmem
  have hpairs : ∀ pair ∈ tree.flatMap (ownerPairs enum),
      pair.1 ∈ index.map Prod.fst ∧ pair.2.1 ∈ index.map Prod.fst := by
    rintro ⟨a, b, file⟩ hpair
    obtain ⟨-, ha, hb⟩ := (mem_ownerPairs htree enum).mp (.inl hpair)
    exact ⟨hknown ha, hknown hb⟩
  obtain ⟨report, hfold, hres⟩ := foldlM_checkPair hindex hpairs ⟨[], true⟩
  refine ⟨report, ?_, ?_⟩
  · rw [checkConflicts, bind_eq_ok_iff]
    exact ⟨index, hindex, bind_eq_ok_iff.mpr ⟨tree, hfstree, hfold⟩⟩
  · rw [hres, and_iff_right rfl]
    simp only [WrittenRepo.SeparatedStripped, ← WrittenRepo.exists_owns_iff]
    constructor
    · rintro hall a b hne ⟨file, ha, hb⟩
      rcases (mem_ownerPairs htree enum).mpr ⟨hne, ha, hb⟩ with hpair | hpair
      · exact hall _ hpair
      · exact (hall _ hpair).symm
    · rintro hseparated ⟨a, b, file⟩ hpair
      obtain ⟨hne, ha, hb⟩ := (mem_ownerPairs htree enum).mp (.inl hpair)
      exact hseparated a b hne ⟨file, ha, hb⟩

end Check

/-! ### Other orders -/

private theorem WrittenIpk.Alike.symm {ipk ipk' : WrittenIpk} (halike : ipk.Alike ipk') :
    ipk'.Alike ipk :=
  ⟨halike.1.symm, halike.2.symm⟩

private theorem exists_of_forall₂ {ipks ipks' : List WrittenIpk}
    {r : WrittenIpk → WrittenIpk → Prop}
    (hall : List.Forall₂ r ipks ipks') : ∀ ipk ∈ ipks, ∃ ipk' ∈ ipks', r ipk ipk' := by
  induction hall with
  | nil => simp
  | cons hhead _ ih =>
    intro ipk hipk
    rcases List.mem_cons.mp hipk with rfl | hipk
    · exact ⟨_, List.mem_cons_self, hhead⟩
    · obtain ⟨ipk', hipk', h⟩ := ih ipk hipk
      exact ⟨ipk', List.mem_cons_of_mem _ hipk', h⟩

section Orders

variable {repo repo' : WrittenRepo}

private theorem WrittenRepo.Reordered.alike (horder : repo.Reordered repo') :
    (∀ ipk ∈ repo.ipks, ∃ ipk' ∈ repo'.ipks, ipk.Alike ipk') ∧
      ∀ ipk' ∈ repo'.ipks, ∃ ipk ∈ repo.ipks, ipk'.Alike ipk := by
  obtain ⟨ipks, hperm, hall⟩ := horder.ipks
  constructor
  · intro ipk hipk
    exact exists_of_forall₂ hall ipk (hperm.mem_iff.mp hipk)
  · intro ipk' hipk'
    obtain ⟨ipk, hipk, hflip⟩ := exists_of_forall₂ hall.flip ipk' hipk'
    have halike : ipk.Alike ipk' := hflip
    exact ⟨ipk, hperm.mem_iff.mpr hipk, halike.symm⟩

private theorem WrittenRepo.Provides.of_alike
    (halike : ∀ ipk ∈ repo.ipks, ∃ ipk' ∈ repo'.ipks, ipk.Alike ipk') {name file : List Char}
    (hprovides : repo.Provides name file) : repo'.Provides name file := by
  obtain ⟨ipk, hipk, hname, listed, hlisted, hpath⟩ := hprovides
  obtain ⟨ipk', hipk', hstanza, hfiles⟩ := halike ipk hipk
  exact ⟨ipk', hipk', hstanza ▸ hname, listed, hfiles.mem_iff.mp hlisted, hpath⟩

/-- In another order there is an index of all packages, too. -/
private theorem WrittenRepo.Reordered.indexed (horder : repo.Reordered repo')
    (hrepo : repo.Indexed) : repo'.Indexed := by
  obtain ⟨index, hindex⟩ := hrepo.readable
  obtain ⟨hread, rfl, hnodup⟩ := packages_eq_ok_iff.mp hindex
  have hfiles : repo.repo.indexes.Perm repo'.repo.indexes := horder.indexes.map _
  refine ⟨⟨_, packages_eq_ok_iff.mpr ⟨?_, rfl, ?_⟩⟩, ?_⟩
  · intro file hfile
    exact hread file (hfiles.mem_iff.mpr hfile)
  · exact ((hfiles.flatMap_right _).map Prod.fst).nodup_iff.mp hnodup
  · intro ipk' hipk'
    obtain ⟨ipk, hipk, hstanza, -⟩ := horder.alike.2 ipk' hipk'
    obtain ⟨name, hname, file, hfile, hmem⟩ := hrepo.known ipk hipk
    exact ⟨name, hstanza ▸ hname, file, horder.indexes.mem_iff.mp hfile, hmem⟩

/-- The result is about the files and the conflicts alone. -/
private theorem WrittenRepo.separatedStripped_congr
    (hprovides : ∀ name file, repo.Provides name file ↔ repo'.Provides name file)
    (hconflict : ∀ a b, repo.Conflict a b ↔ repo'.Conflict a b) :
    repo.SeparatedStripped ↔ repo'.SeparatedStripped := by
  simp only [WrittenRepo.SeparatedStripped, hprovides, hconflict]

end Orders

private theorem rstrip_of_mem_nil : ∀ line ∈ ([] : List (List Char)), rstrip line = line := by
  simp

private theorem oneLine_of_mem_nil : ∀ line ∈ ([] : List (List Char)), OneLine line := by
  simp

/-- An attribute with a value of one line. -/
private def plain (name value : List Char)
    (h : name ≠ [] ∧ ':' ∉ name ∧ name.head? ≠ some ' ' ∧ OneLine name ∧ strip value = value ∧
      OneLine value) : Attribute where
  name := name
  value := ⟨value, [], h.2.2.2.2.1, h.2.2.2.2.2, rstrip_of_mem_nil, oneLine_of_mem_nil⟩
  name_ne_nil := h.1
  name_noColon := h.2.1
  name_noBlank := h.2.2.1
  oneLine_name := h.2.2.2.1

/-- The stanza of a package. -/
private def packageA : Stanza where
  attributes := [plain "Package".toList "a".toList (by decide)]
  ne_nil := by decide
  nodup := by decide

@[inherit_doc packageA]
private def packageB : Stanza where
  attributes := [plain "Package".toList "b".toList (by decide)]
  ne_nil := by decide
  nodup := by decide

/-- The stanza of a package that lists the other one. -/
private def listingA : Stanza where
  attributes := [plain "Package".toList "a".toList (by decide),
    plain "Conflicts".toList "c, b".toList (by decide)]
  ne_nil := by decide
  nodup := by decide

/-- A list with one file. -/
private def fileNamed (path : List Char) (h : OneLine path) : List ListedFile :=
  [⟨"0".toList, path, by decide, by decide, h⟩]

private def ipkA : WrittenIpk where
  gap := 1
  blanks := 0
  stanza := packageA
  closed := by simp [Stanza.Closed, Value.Closed, packageA, plain]
  files := fileNamed "./etc/x".toList (by decide)

private def ipkB (path : List Char) (h : OneLine path) : WrittenIpk where
  gap := 1
  blanks := 0
  stanza := packageB
  closed := by simp [Stanza.Closed, Value.Closed, packageB, plain]
  files := fileNamed path h

/-- Two packages with a common file, one of which lists the other. -/
def sharedFile : WrittenRepo where
  ipks := [ipkA, ipkB "./etc/x".toList (by decide)]
  indexes := [⟨"base".toList, 1, [listingA, packageB]⟩]
  closed := by simp [Stanza.Closed, Value.Closed, listingA, packageB, plain]

/-- Two packages with files whose names differ in a blank, of which none lists the other. -/
def blankAtEnd : WrittenRepo where
  ipks := [ipkA, ipkB "./etc/x ".toList (by decide)]
  indexes := [⟨"base".toList, 1, [packageA, packageB]⟩]
  closed := by simp [Stanza.Closed, Value.Closed, packageA, packageB, plain]

private theorem sharedFile_indexed : sharedFile.Indexed where
  readable := ⟨_, (rfl : packages sharedFile.repo.indexes = .ok _)⟩
  known := by
    intro ipk hipk
    rcases List.mem_pair.mp hipk with rfl | rfl
    · exact ⟨"a".toList, rfl, _, List.mem_cons_self, listingA, List.mem_cons_self, rfl⟩
    · exact ⟨"b".toList, rfl, _, List.mem_cons_self, packageB,
        List.mem_cons_of_mem _ List.mem_cons_self, rfl⟩

/-- What the packages provide. -/
private theorem blankAtEnd_provides {name file : List Char}
    (hprovides : blankAtEnd.Provides name file) :
    name = "a".toList ∧ file = "./etc/x".toList ∨ name = "b".toList ∧ file = "./etc/x ".toList := by
  obtain ⟨ipk, hipk, hname, listed, hlisted, rfl⟩ := hprovides
  rcases List.mem_pair.mp hipk with rfl | rfl
  · obtain rfl := List.mem_singleton.mp hlisted
    exact .inl ⟨(Option.some.inj hname).symm, rfl⟩
  · obtain rfl := List.mem_singleton.mp hlisted
    exact .inr ⟨(Option.some.inj hname).symm, rfl⟩

end TurrisBuild.CheckPackages
