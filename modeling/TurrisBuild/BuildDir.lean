import TurrisBuild.Lib.FileSystem

/-!
# The directory that is wiped for a build

`compile_pkgs` and `generate_lists` work in the directory they are started from, and
`set_protected_build_dir` of `helpers/generate_common.sh` sends them to a
subdirectory when that is the source repository itself. `git_clean_checkout` then
throws out of the directory what does not belong to the revision it checks out.
-/

namespace TurrisBuild.BuildDir

open FileSystem

variable {C : Type}

/-- The two scripts that check out into their build directory. -/
inductive Script
  | compilePkgs
  | generateLists

/-- The subdirectory that the script goes to from the source repository. -/
def Script.alt : Script → Name
  | .compilePkgs => "build".toList
  | .generateLists => "lists".toList

/-- The names at the top of the build directory that `git clean` is told to leave. -/
def Script.excludes : Script → List Name
  | .compilePkgs => ["turris-build.conf".toList]
  | .generateLists => []

/-- What `build_dir` names: the place where the last name of it stands, and the
directory that it leads to. The script is there from then on. -/
structure Target (C : Type) where
  files : Files C
  place : Path
  dir : Path

/-- `mkdir -p` of a path whose last name stands at a place. -/
def mkdir (path place : Path) (files : Files C) : Option (Files C) :=
  match node files place with
  | none => some (put files place .dir)
  | some .dir => some files
  | some (.link _) => if (directory files path).isSome then some files else none
  | some (.file _) => none

/-- Where the build takes place, for a working directory as the shell names it. There
is none if the script fails. -/
def setProtectedBuildDir (alt : Name) (srcDir cwd : Path) (files : Files C) :
    Option (Target C) := do
  let buildDir ← directory files cwd
  if buildDir = srcDir then
    let files' ← mkdir (cwd ++ [alt]) (buildDir ++ [alt]) files
    let dir ← directory files' (cwd ++ [alt])
    return ⟨files', buildDir ++ [alt], dir⟩
  else return ⟨files, buildDir, buildDir⟩

def gitDir : Name := ".git".toList

/-- A revision with the files of its submodules, and what it takes for ignored. -/
structure Revision (C : Type) where
  tracked : Files C
  submodules : List Path
  ignored : Path → Bool
  proper : ∀ e ∈ tracked, e.1 ≠ [] ∧ e.1.head? ≠ some gitDir ∧ e.2 ≠ .dir
  apart : tracked.Pairwise fun e e' => ¬ e.1 <+: e'.1 ∧ ¬ e'.1 <+: e.1

namespace Revision

variable (rev : Revision C)

/-- The directories above the tracked files. -/
def directories : Files C :=
  rev.tracked.flatMap fun e =>
    (e.1.inits.filter fun d => !d.isEmpty && d != e.1).map fun d => (d, .dir)

/-- Nothing may stand at the path beside a tracked file that is there, above or below. -/
def inTheWay (r : Path) : Bool :=
  !r.isEmpty && rev.tracked.any fun e => e.1.isPrefixOf r || r.isPrefixOf e.1

/-- `git checkout -f`. -/
def checkout (dir : Path) (files : Files C) : Files C :=
  graft dir rev.tracked ++ graft dir rev.directories ++
    keep (fun p => !(dir.isPrefixOf p && rev.inTheWay (p.drop dir.length))) files

/-- The path is above a tracked file or a submodule. -/
def leadsOn (r : Path) : Bool :=
  rev.directories.any (·.1 == r) || rev.submodules.any (r.isPrefixOf ·)

/-- What `git clean -dff` reaches of the names that are left of a path, when it has come
down to the directory `above`. -/
def cleaned (excludes : List Name) (repository : Path → Bool) : Path → List Name → Bool
  | _, [] => false
  | above, name :: rest =>
    let r := above ++ [name]
    if name == gitDir || rev.tracked.any (·.1 == r) || rev.submodules.contains r ||
        rev.ignored r || above.isEmpty && excludes.contains name then false
    else if rev.leadsOn r then cleaned excludes repository r rest
    -- A repository that is not tracked goes with all that is in it.
    else repository r || rest.isEmpty || cleaned excludes repository r rest

/-- `git clean -dff`. A directory goes when nothing is left in it. -/
def clean (excludes : List Name) (repository : Files C → Path → Bool) (dir : Path)
    (files : Files C) : Files C :=
  keep (fun p => !(dir.isPrefixOf p && files.all fun e => !p.isPrefixOf e.1 ||
    rev.cleaned excludes (fun r => repository files (dir ++ r)) [] (e.1.drop dir.length))) files

end Revision

/-- What the remote has given: the new `.git`, and the revision unless the fetch failed. -/
structure Remote (C : Type) where
  store : Files C
  revision : Option (Revision C)

/-- The file name ends in `.rej`. -/
def isRejected (p : Path) : Bool := p.getLast?.any fun name => ".rej".toList.isSuffixOf name

/-- `find -name '*.rej' -delete`, which does not enter a link that it is given. -/
def deleteRejected (place : Path) (files : Files C) : Files C :=
  if isDir files place then
    keep (fun p => !(place.isPrefixOf p && isRejected p &&
      files.all fun e => !p.isPrefixOf e.1 || isRejected e.1)) files
  else files

/-- Where the script lets `find` begin: `.` or `$build_dir`. -/
def Script.searched (script : Script) (b : Target C) : Path :=
  match script with
  | .compilePkgs => b.dir
  | .generateLists => b.place

/-- `git_clean_checkout` in the build directory. What makes a directory a repository of
its own is up to git. -/
def gitCleanCheckout (repository : Files C → Path → Bool) (script : Script) (remote : Remote C)
    (b : Target C) : Files C :=
  let fetched := graft (b.dir ++ [gitDir]) remote.store ++ removeTree (b.dir ++ [gitDir]) b.files
  match remote.revision with
  | none => fetched
  | some rev =>
    deleteRejected (script.searched b)
      (rev.clean script.excludes repository b.dir (rev.checkout b.dir fetched))

/-- The checkout of a script from its start on. -/
def startCheckout (repository : Files C → Path → Bool) (script : Script) (remote : Remote C)
    (srcDir cwd : Path) (files : Files C) : Files C :=
  match setProtectedBuildDir script.alt srcDir cwd files with
  | none => files
  | some b => gitCleanCheckout repository script remote b

/-- A file or link of the source repository outside the subdirectory for the build. -/
def IsSource (script : Script) (srcDir : Path) (files : Files C) (p : Path) (n : Node C) : Prop :=
  node files p = some n ∧ n ≠ .dir ∧ srcDir <+: p ∧ ¬ srcDir ++ [script.alt] <+: p

/-- Every source file is still there as it was. -/
def SourcesKept (script : Script) (srcDir : Path) (files files' : Files C) : Prop :=
  ∀ p n, IsSource script srcDir files p n → node files' p = some n

/-- No source file lies in the directory. -/
def SourcesOutside (script : Script) (srcDir : Path) (files : Files C) (dir : Path) : Prop :=
  ∀ p n, IsSource script srcDir files p n → ¬ dir <+: p

/-- The working directory holds none of the sources, or it is the source repository and
its subdirectory for the build, if it is a link, leads to no directory that holds any. -/
def WorksOutside (script : Script) (srcDir cwd : Path) (files : Files C) : Prop :=
  ∀ here, directory files cwd = some here →
    (here ≠ srcDir → SourcesOutside script srcDir files here) ∧
    (here = srcDir → ∀ l, node files (srcDir ++ [script.alt]) = some (.link l) →
      ∀ there, directory files (cwd ++ [script.alt]) = some there →
        SourcesOutside script srcDir files there)

section Frame

variable {dir p : Path}

private theorem not_prefix_snoc (hp : ¬ dir <+: p) (name : Name) : ¬ dir ++ [name] <+: p :=
  fun h => hp ((List.prefix_append _ _).trans h)

private theorem isPrefixOf_false (hp : ¬ dir <+: p) : dir.isPrefixOf p = false := by
  rw [Bool.eq_false_iff, ne_eq, List.isPrefixOf_iff_prefix]
  exact hp

private theorem node_removeTree (hp : ¬ dir <+: p) (files : Files C) :
    node (removeTree dir files) p = node files p := by
  rw [removeTree, node_keep, isPrefixOf_false hp]
  rfl

private theorem node_checkout (hp : ¬ dir <+: p) (rev : Revision C) (files : Files C) :
    node (rev.checkout dir files) p = node files p := by
  rw [Revision.checkout, node_append, node_append, node_graft_eq_none hp, node_graft_eq_none hp,
    node_keep, isPrefixOf_false hp]
  rfl

private theorem node_clean (hp : ¬ dir <+: p) (rev : Revision C) (excludes : List Name)
    (repository : Files C → Path → Bool) (files : Files C) :
    node (rev.clean excludes repository dir files) p = node files p := by
  rw [Revision.clean, node_keep, isPrefixOf_false hp]
  rfl

private theorem node_deleteRejected {place : Path} {files : Files C}
    (hp : isDir files place = true → ¬ place <+: p) :
    node (deleteRejected place files) p = node files p := by
  unfold deleteRejected
  split
  · next hdir =>
    rw [node_keep, isPrefixOf_false (hp hdir)]
    rfl
  · rfl

/-- The checkout touches nothing outside its directory and the place searched last. -/
theorem node_gitCleanCheckout {b : Target C} (script : Script) (hdir : ¬ b.dir <+: p)
    (hsearched : ¬ script.searched b <+: p) (repository : Files C → Path → Bool)
    (remote : Remote C) :
    node (gitCleanCheckout repository script remote b) p = node b.files p := by
  have hgit := not_prefix_snoc hdir gitDir
  have hfetched : node (graft (b.dir ++ [gitDir]) remote.store ++
      removeTree (b.dir ++ [gitDir]) b.files) p = node b.files p := by
    rw [node_append, node_graft_eq_none hgit, node_removeTree hgit]
    rfl
  unfold gitCleanCheckout
  cases remote.revision with
  | none => exact hfetched
  | some rev =>
    simp only
    rw [node_deleteRejected fun _ => hsearched, node_clean hdir, node_checkout hdir, hfetched]

end Frame

section Loss

variable {p : Path} {n : Node C} {b : Target C}

/-- The revision that has a single link. -/
def singleLink (r : Path) (hr : r ≠ [] ∧ r.head? ≠ some gitDir) : Revision C where
  tracked := [(r, .link ⟨false, ["x".toList]⟩)]
  submodules := []
  ignored := fun _ => false
  proper := by
    intro e he
    obtain rfl := List.mem_singleton.mp he
    exact ⟨hr.1, hr.2, by simp⟩
  apart := List.pairwise_singleton _ _

/-- Cleaning only takes files away from those of the revision and the directory. -/
private theorem node_of_checkout {script : Script} {repository : Files C → Path → Bool}
    {remote : Remote C} {rev : Revision C} (hrev : remote.revision = some rev)
    (h : node (gitCleanCheckout repository script remote b) p = some n) :
    node (rev.checkout b.dir (graft (b.dir ++ [gitDir]) remote.store ++
      removeTree (b.dir ++ [gitDir]) b.files)) p = some n := by
  unfold gitCleanCheckout at h
  simp only [hrev] at h
  unfold deleteRejected at h
  split at h
  · exact node_of_node_keep (node_of_node_keep h)
  · exact node_of_node_keep h

private theorem checkout_below_link (dir : Path) {c d : Name} (rest : Path)
    (hc : [c] ≠ [] ∧ [c].head? ≠ some gitDir) (files : Files C) :
    node ((singleLink [c] hc).checkout dir files) (dir ++ c :: d :: rest) = none := by
  have htracked : node (singleLink (C := C) [c] hc).tracked (c :: d :: rest) = none := by
    simp [node, singleLink]
  have hdirectories : (singleLink (C := C) [c] hc).directories = [] := by
    simp [Revision.directories, singleLink]
  have hway : (singleLink (C := C) [c] hc).inTheWay (c :: d :: rest) = true := by
    simp [Revision.inTheWay, singleLink]
  rw [Revision.checkout, node_append, node_append, node_graft, node_graft, htracked, hdirectories,
    node_keep, List.drop_left, hway, List.isPrefixOf_iff_prefix.mpr (List.prefix_append _ _)]
  rfl

private theorem checkout_above_link (dir : Path) {c : Name} (d : Name)
    (hc : [c, d] ≠ [] ∧ [c, d].head? ≠ some gitDir) (files : Files C) :
    node ((singleLink [c, d] hc).checkout dir files) (dir ++ [c]) = some .dir := by
  have htracked : node (singleLink (C := C) [c, d] hc).tracked [c] = none := by
    simp [node, singleLink]
  have hdirectories : node (singleLink (C := C) [c, d] hc).directories [c] = some .dir := by
    simp [node, Revision.directories, singleLink]
  rw [Revision.checkout, node_append, node_append, node_graft, node_graft, htracked, hdirectories]
  rfl

/-- Whatever lies in the directory, some revision takes its place. -/
theorem exists_remote_lost (repository : Files C → Path → Bool) (script : Script)
    (hnode : node b.files p = some n) (hfile : n ≠ .dir) (hdir : isDir b.files b.dir = true)
    (hp : b.dir <+: p) :
    ∃ remote, node (gitCleanCheckout repository script remote b) p ≠ some n := by
  obtain ⟨r, rfl⟩ := hp
  match r with
  | [] =>
    rw [List.append_nil, isDir_iff.mp hdir] at hnode
    exact absurd (Option.some.inj hnode).symm hfile
  | c :: rest =>
    by_cases hc : c = gitDir
    · refine ⟨⟨[], none⟩, ?_⟩
      have hprefix : b.dir ++ [gitDir] <+: b.dir ++ c :: rest := by
        rw [hc]
        exact ⟨rest, by simp⟩
      have hremoved : gitCleanCheckout repository script ⟨[], none⟩ b =
          removeTree (b.dir ++ [gitDir]) b.files := rfl
      rw [hremoved, removeTree, node_keep, List.isPrefixOf_iff_prefix.mpr hprefix]
      simp
    · match rest with
      | [] =>
        refine ⟨⟨[], some (singleLink [c, c] ⟨by simp, by simpa using hc⟩)⟩, fun h => ?_⟩
        have hcheckout := node_of_checkout rfl h
        rw [checkout_above_link] at hcheckout
        exact hfile (Option.some.inj hcheckout).symm
      | d :: rest =>
        refine ⟨⟨[], some (singleLink [c] ⟨by simp, by simpa using hc⟩)⟩, fun h => ?_⟩
        have hcheckout := node_of_checkout rfl h
        rw [checkout_below_link] at hcheckout
        cases hcheckout

end Loss

section Start

variable {script : Script} {srcDir cwd : Path} {files : Files C} {b : Target C}

private theorem Script.alt_ne (script : Script) :
    script.alt ≠ ['.'] ∧ script.alt ≠ ['.', '.'] := by
  cases script <;> decide

private theorem mkdir_eq_some {path place : Path} {files' : Files C}
    (h : mkdir path place files = some files') :
    (node files place = none ∧ files' = put files place .dir) ∨
    (node files place = some .dir ∧ files' = files) ∨
    (∃ l, node files place = some (.link l)) ∧ files' = files := by
  unfold mkdir at h
  split at h
  · next hnode => exact .inl ⟨hnode, (Option.some.inj h).symm⟩
  · next hnode => exact .inr (.inl ⟨hnode, (Option.some.inj h).symm⟩)
  · next l hnode =>
    split at h
    · exact .inr (.inr ⟨⟨l, hnode⟩, (Option.some.inj h).symm⟩)
    · cases h
  · cases h

/-- Where a script comes to work. -/
theorem setProtectedBuildDir_eq_some_iff {alt : Name} :
    setProtectedBuildDir alt srcDir cwd files = some b ↔
      ∃ here, directory files cwd = some here ∧
        ((here ≠ srcDir ∧ b = ⟨files, here, here⟩) ∨
        (here = srcDir ∧ mkdir (cwd ++ [alt]) (srcDir ++ [alt]) files = some b.files ∧
          directory b.files (cwd ++ [alt]) = some b.dir ∧ b.place = srcDir ++ [alt])) := by
  unfold setProtectedBuildDir
  rw [Option.bind_eq_bind, Option.bind_eq_some_iff]
  refine exists_congr fun here => and_congr_right fun _ => ?_
  split
  · next hhere =>
    subst hhere
    simp only [Option.bind_eq_bind, Option.bind_eq_some_iff, ne_eq, not_true, false_and, false_or,
      true_and]
    constructor
    · rintro ⟨files', hmkdir, dir, hdir, hb⟩
      obtain rfl := Option.some.inj hb
      exact ⟨hmkdir, hdir, rfl⟩
    · rintro ⟨hmkdir, hdir, hplace⟩
      refine ⟨b.files, hmkdir, b.dir, hdir, ?_⟩
      rw [← hplace]
      rfl
  · next hhere =>
    constructor
    · intro hb
      exact .inl ⟨hhere, (Option.some.inj hb).symm⟩
    · rintro (⟨-, rfl⟩ | ⟨hsrc, -⟩)
      · rfl
      · exact absurd hsrc hhere

/-- The files of the target are those that were there, but for a new directory. -/
theorem node_target {p : Path} {n : Node C}
    (hb : setProtectedBuildDir script.alt srcDir cwd files = some b)
    (hp : IsSource script srcDir files p n) : node b.files p = some n := by
  obtain ⟨here, -, ⟨-, rfl⟩ | ⟨-, hmkdir, -⟩⟩ := setProtectedBuildDir_eq_some_iff.mp hb
  · exact hp.1
  · obtain ⟨-, hfiles⟩ | ⟨-, hfiles⟩ | ⟨-, hfiles⟩ := mkdir_eq_some hmkdir
    · have hne : p ≠ srcDir ++ [script.alt] := by
        rintro rfl
        exact hp.2.2.2 List.prefix_rfl
      rw [hfiles, node_put, if_neg hne]
      exact hp.1
    · rw [hfiles]
      exact hp.1
    · rw [hfiles]
      exact hp.1

/-- The scripts work outside the sources when every target they can get does. -/
theorem worksOutside_iff :
    WorksOutside script srcDir cwd files ↔
      ∀ b, setProtectedBuildDir script.alt srcDir cwd files = some b →
        SourcesOutside script srcDir files b.dir := by
  constructor
  · intro hworks b hb
    obtain ⟨here, hhere, ⟨hne, rfl⟩ | ⟨rfl, hmkdir, hdir, -⟩⟩ :=
      setProtectedBuildDir_eq_some_iff.mp hb
    · exact (hworks here hhere).1 hne
    · -- A subdirectory of its own holds no source by definition.
      have hown (hle : ∀ q n, node files q = some n → node b.files q = some n)
          (hnode : node b.files (here ++ [script.alt]) = some .dir) :
          SourcesOutside script here files b.dir := by
        rw [directory_snoc hle script.alt_ne hhere hnode] at hdir
        rw [← Option.some.inj hdir]
        intro p n hp
        exact hp.2.2.2
      obtain ⟨hnone, hfiles⟩ | ⟨hnode, hfiles⟩ | ⟨⟨l, hl⟩, hfiles⟩ := mkdir_eq_some hmkdir
      · apply hown
        · intro q n hq
          rw [hfiles, node_put, if_neg (by rintro rfl; rw [hnone] at hq; cases hq)]
          exact hq
        · rw [hfiles, node_put, if_pos rfl]
      · rw [hfiles] at hown
        exact hown (fun _ _ h => h) hnode
      · rw [hfiles] at hdir
        exact (hworks here hhere).2 rfl l hl _ hdir
  · intro htargets here hhere
    constructor
    · intro hne
      exact htargets ⟨files, here, here⟩ (setProtectedBuildDir_eq_some_iff.mpr
        ⟨here, hhere, .inl ⟨hne, rfl⟩⟩)
    · rintro rfl l hl there hthere
      have hmkdir : mkdir (cwd ++ [script.alt]) (here ++ [script.alt]) files = some files := by
        rw [mkdir, hl]
        simp only [hthere, Option.isSome_some, if_true]
      exact htargets ⟨files, here ++ [script.alt], there⟩ (setProtectedBuildDir_eq_some_iff.mpr
        ⟨here, hhere, .inr ⟨rfl, hmkdir, hthere, rfl⟩⟩)

/-- A target is a directory, and what is searched there at last is this directory or
the subdirectory for the build. -/
theorem target_searched (hb : setProtectedBuildDir script.alt srcDir cwd files = some b) :
    isDir b.files b.dir = true ∧
      (script.searched b = b.dir ∨ script.searched b = srcDir ++ [script.alt]) := by
  obtain ⟨here, hhere, ⟨-, rfl⟩ | ⟨-, -, hdir, hplace⟩⟩ := setProtectedBuildDir_eq_some_iff.mp hb
  · refine ⟨isDir_iff.mpr (directory_eq_some_iff.mp hhere).2, .inl ?_⟩
    cases script <;> rfl
  · refine ⟨isDir_iff.mpr (directory_eq_some_iff.mp hdir).2, ?_⟩
    cases script with
    | compilePkgs => exact .inl rfl
    | generateLists => exact .inr hplace

/-- **A checkout leaves every file of the source repository as it is, whatever it brings,
exactly when the scripts work outside the sources.** The comparison with the path of
the repository protects only against being started in its top directory. -/
theorem sources_kept_iff (repository : Files C → Path → Bool) (script : Script)
    (srcDir cwd : Path) (files : Files C) :
    (∀ remote, SourcesKept script srcDir files
      (startCheckout repository script remote srcDir cwd files)) ↔
      WorksOutside script srcDir cwd files := by
  rw [worksOutside_iff]
  constructor
  · intro hkept b hb p n hp hin
    obtain ⟨hdir, -⟩ := target_searched hb
    obtain ⟨remote, hlost⟩ :=
      exists_remote_lost repository script (node_target hb hp) hp.2.1 hdir hin
    have hstart := hkept remote p n hp
    rw [startCheckout, hb] at hstart
    exact hlost hstart
  · intro houtside remote p n hp
    unfold startCheckout
    split
    · exact hp.1
    · next b hb =>
      obtain ⟨-, hsearched⟩ := target_searched hb
      have hdir := houtside b hb p n hp
      rw [node_gitCleanCheckout script hdir _ repository remote]
      · exact node_target hb hp
      · rcases hsearched with hsearched | hsearched
        · rwa [hsearched]
        · rw [hsearched]
          exact hp.2.2.2

private def osBuild : Path := ["home".toList, "os-build".toList]

/-- A home directory with the source repository in it, whose `build` is a link to it. -/
private def home : Files ℕ :=
  [([], .dir), (["home".toList], .dir), (osBuild, .dir), (osBuild ++ [gitDir], .dir),
    (osBuild ++ ["compile_pkgs".toList], .file 1),
    (osBuild ++ ["build".toList], .link ⟨false, [['.']]⟩)]

/-- A revision with a single file. -/
private def openwrt : Remote ℕ where
  store := [([], .dir)]
  revision := some
    { tracked := [(["Makefile".toList], .file 2)]
      submodules := []
      ignored := fun _ => false
      proper := by
        intro e he
        obtain rfl := List.mem_singleton.mp he
        exact ⟨by simp, by decide, by simp⟩
      apart := List.pairwise_singleton _ _ }

private def checkoutHome (cwd : Path) : Files ℕ :=
  startCheckout (fun files p => isDir files (p ++ [gitDir])) .compilePkgs openwrt osBuild cwd home

/-- Started in the directory above the repository, or in the repository itself with a
link back to it, the checkout deletes the script. -/
theorem checkout_deletes_script :
    ¬ SourcesKept .compilePkgs osBuild home (checkoutHome ["home".toList]) ∧
    ¬ SourcesKept .compilePkgs osBuild home (checkoutHome osBuild) := by
  have hsource :
      IsSource .compilePkgs osBuild home (osBuild ++ ["compile_pkgs".toList]) (.file 1) :=
    ⟨by decide, by simp, by decide, by decide⟩
  have habove :
      node (checkoutHome ["home".toList]) (osBuild ++ ["compile_pkgs".toList]) = none := by
    decide +kernel
  have hlinked : node (checkoutHome osBuild) (osBuild ++ ["compile_pkgs".toList]) = none := by
    decide +kernel
  constructor
  · intro hkept
    have hscript := hkept _ _ hsource
    rw [habove] at hscript
    cases hscript
  · intro hkept
    have hscript := hkept _ _ hsource
    rw [hlinked] at hscript
    cases hscript

/-- The guard does its work in the source repository, if the subdirectory is no link. -/
theorem worksOutside_srcDir (hcwd : directory files cwd = some srcDir)
    (hlink : ∀ l, node files (srcDir ++ [script.alt]) ≠ some (.link l)) :
    WorksOutside script srcDir cwd files := by
  intro here hhere
  obtain rfl := Option.some.inj (hcwd.symm.trans hhere)
  exact ⟨fun hne => absurd rfl hne, fun _ l hl => absurd hl (hlink l)⟩

/-- From a directory above the repository every source is in danger. -/
theorem not_worksOutside_above {here p : Path} {n : Node C} (hcwd : directory files cwd = some here)
    (habove : here <+: srcDir) (hne : here ≠ srcDir) (hp : IsSource script srcDir files p n) :
    ¬ WorksOutside script srcDir cwd files :=
  fun hworks => (hworks here hcwd).1 hne p n hp (habove.trans hp.2.2.1)

end Start

end TurrisBuild.BuildDir
