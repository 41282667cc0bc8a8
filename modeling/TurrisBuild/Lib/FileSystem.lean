import Mathlib.Data.List.Basic

/-!
# Files, directories and symbolic links

A finite tree of files with its links, the directory that a path leads to, and the
few operations on whole subtrees. Paths are lists of names from the root.
-/

namespace FileSystem

abbrev Name := List Char

abbrev Path := List Name

/-- The text of a symbolic link, cut at its slashes. -/
structure Link where
  absolute : Bool
  target : List Name
  deriving DecidableEq

inductive Node (C : Type*)
  | dir
  | file (content : C)
  | link (l : Link)
  deriving DecidableEq

/-- The entries of a file system, with the root among them. The first entry of a path
counts. -/
abbrev Files (C : Type*) := List (Path × Node C)

variable {C : Type*}

def node (files : Files C) (p : Path) : Option (Node C) := files.lookup p

def put (files : Files C) (p : Path) (n : Node C) : Files C := (p, n) :: files

/-- The entries at the paths that pass a test. -/
def keep (f : Path → Bool) (files : Files C) : Files C := files.filter fun e => f e.1

/-- The files of one tree at their places below a directory. -/
def graft (dir : Path) (files : Files C) : Files C := files.map fun e => (dir ++ e.1, e.2)

/-- `rm -rf` of a path. -/
def removeTree (p : Path) (files : Files C) : Files C := keep (fun q => !p.isPrefixOf q) files

def isDir (files : Files C) (p : Path) : Bool :=
  match node files p with
  | some .dir => true
  | _ => false

/-- What a directory is. -/
theorem isDir_iff {files : Files C} {p : Path} :
    isDir files p = true ↔ node files p = some .dir := by
  unfold isDir
  split
  · next hnode => exact iff_of_true rfl hnode
  · next hnode => exact iff_of_false Bool.false_ne_true hnode

/-- The node at a path after one is put. -/
theorem node_put (files : Files C) (p q : Path) (n : Node C) :
    node (put files p n) q = if q = p then some n else node files q := by
  unfold node put
  rw [List.lookup_cons]
  by_cases hq : q = p
  · rw [if_pos hq, beq_iff_eq.mpr hq]
  · rw [if_neg hq, beq_eq_false_iff_ne.mpr hq]

/-- The nodes that are kept. -/
theorem node_keep (f : Path → Bool) (files : Files C) (p : Path) :
    node (keep f files) p = if f p then node files p else none := by
  unfold node keep
  induction files with
  | nil => simp
  | cons e files ih =>
    rw [List.filter_cons, List.lookup_cons]
    by_cases hp : p = e.1
    · subst hp
      rw [beq_self_eq_true]
      cases hf : f e.1 with
      | true => rw [if_pos rfl, if_pos rfl, List.lookup_cons, beq_self_eq_true]
      | false => rw [if_neg Bool.false_ne_true, ih, hf, if_neg Bool.false_ne_true]; rfl
    · rw [beq_eq_false_iff_ne.mpr hp, ← ih]
      cases hf : f e.1 with
      | true => rw [if_pos rfl, List.lookup_cons, beq_eq_false_iff_ne.mpr hp]
      | false => rw [if_neg Bool.false_ne_true]

/-- Nothing is added when nodes are kept. -/
theorem node_of_node_keep {f : Path → Bool} {files : Files C} {p : Path} {n : Node C}
    (h : node (keep f files) p = some n) : node files p = some n := by
  rw [node_keep] at h
  split at h
  · exact h
  · cases h

/-- A node that is looked up is among the files. -/
theorem mem_of_node {files : Files C} {p : Path} {n : Node C} (h : node files p = some n) :
    (p, n) ∈ files := by
  obtain ⟨l₁, l₂, rfl, -⟩ := List.lookup_eq_some_iff.mp h
  simp

/-- There is no node at a path that no file has. -/
theorem node_eq_none {files : Files C} {p : Path} (h : ∀ e ∈ files, e.1 ≠ p) :
    node files p = none :=
  List.lookup_eq_none_iff.mpr fun e he => bne_iff_ne.mpr (h e he).symm

/-- With distinct paths every file is found. -/
theorem node_of_mem {files : Files C} (hfiles : files.Pairwise fun e e' => e.1 ≠ e'.1) {p : Path}
    {n : Node C} (h : (p, n) ∈ files) : node files p = some n := by
  obtain ⟨l₁, l₂, rfl⟩ := List.append_of_mem h
  refine List.lookup_eq_some_iff.mpr ⟨l₁, l₂, rfl, fun e he => ?_⟩
  rw [bne_iff_ne]
  exact ((List.pairwise_append.mp hfiles).2.2 e he (p, n) List.mem_cons_self).symm

/-- Of two collections the first one is looked up first. -/
theorem node_append (files files' : Files C) (p : Path) :
    node (files ++ files') p = (node files p).or (node files' p) := List.lookup_append

/-- Nothing that is grafted below a directory stands elsewhere. -/
theorem node_graft_eq_none {dir p : Path} (hp : ¬ dir <+: p) (files : Files C) :
    node (graft dir files) p = none := by
  refine node_eq_none fun e he => ?_
  obtain ⟨e', -, rfl⟩ := List.mem_map.mp he
  rintro rfl
  exact hp (List.prefix_append _ _)

/-- A grafted file is found below its new directory. -/
theorem node_graft (dir r : Path) (files : Files C) :
    node (graft dir files) (dir ++ r) = node files r := by
  unfold node graft
  induction files with
  | nil => rfl
  | cons e files ih =>
    rw [List.map_cons, List.lookup_cons, List.lookup_cons, ih]
    have heq : (dir ++ r == dir ++ e.1) = (r == e.1) := by
      rw [Bool.eq_iff_iff, beq_iff_eq, beq_iff_eq, List.append_cancel_left_eq]
    rw [heq]

/-- The path that is reached from a directory by a list of names, if every link on
the way is given to `follow` with the directory it counts from. Only the last name
may be that of no directory. -/
def walk (files : Files C) (follow : Path → List Name → Option Path) :
    Path → List Name → Option Path
  | cur, [] => some cur
  | cur, name :: rest =>
    if name = ['.'] then walk files follow cur rest
    else if name = ['.', '.'] then walk files follow cur.dropLast rest
    else match node files (cur ++ [name]) with
      | some .dir => walk files follow (cur ++ [name]) rest
      | some (.link l) => follow (if l.absolute then [] else cur) (l.target ++ rest)
      | _ => if rest.isEmpty then some (cur ++ [name]) else none

/-- The same with at most the given number of links. -/
def resolve (files : Files C) : Nat → Path → List Name → Option Path
  | 0 => walk files fun _ _ => none
  | n + 1 => walk files (resolve files n)

/-- `readlink -f`, within the number of links that the system follows. -/
def canonical (files : Files C) (p : Path) : Option Path := resolve files 40 [] p

/-- The directory that a path leads to. -/
def directory (files : Files C) (p : Path) : Option Path :=
  (canonical files p).filter (isDir files)

/-- What a path to a directory stands for. -/
theorem directory_eq_some_iff {files : Files C} {p dir : Path} :
    directory files p = some dir ↔ canonical files p = some dir ∧ node files dir = some .dir := by
  rw [directory, Option.filter_eq_some_iff, isDir_iff]

section Entering

variable {files files' : Files C} {here : Path} {name : Name}

private theorem walk_snoc {follow follow' : Path → List Name → Option Path}
    (hle : ∀ q n, node files q = some n → node files' q = some n)
    (hname : name ≠ ['.'] ∧ name ≠ ['.', '.'])
    (hhere : node files here = some .dir) (hdir : node files' (here ++ [name]) = some .dir)
    (hfollow : ∀ cur names, follow cur names = some here →
      follow' cur (names ++ [name]) = some (here ++ [name])) :
    ∀ (names : List Name) (cur : Path), walk files follow cur names = some here →
      walk files' follow' cur (names ++ [name]) = some (here ++ [name]) := by
  intro names
  induction names with
  | nil =>
    intro cur hwalk
    obtain rfl := Option.some.inj hwalk
    rw [List.nil_append, walk, if_neg hname.1, if_neg hname.2, hdir, walk]
  | cons c rest ih =>
    intro cur hwalk
    rw [walk] at hwalk
    rw [List.cons_append, walk]
    split at hwalk
    · next hdot => exact (if_pos hdot).trans (ih cur hwalk)
    · next hdot =>
      rw [if_neg hdot]
      split at hwalk
      · next hup => exact (if_pos hup).trans (ih _ hwalk)
      · next hup =>
        rw [if_neg hup]
        split at hwalk
        · next hnode =>
          rw [hle _ _ hnode]
          exact ih _ hwalk
        · next l hnode =>
          rw [hle _ _ hnode]
          simp only
          rw [← List.append_assoc]
          exact hfollow _ _ hwalk
        · next hnone _ =>
          -- The path ends at what is no directory, so that nothing can be entered there.
          split at hwalk
          · obtain rfl := Option.some.inj hwalk
            exact absurd hhere hnone
          · cases hwalk

/-- A directory is entered from where its parent is reached, also when it has only
just been made. -/
theorem directory_snoc {p : Path} (hle : ∀ q n, node files q = some n → node files' q = some n)
    (hname : name ≠ ['.'] ∧ name ≠ ['.', '.']) (hp : directory files p = some here)
    (hdir : node files' (here ++ [name]) = some .dir) :
    directory files' (p ++ [name]) = some (here ++ [name]) := by
  obtain ⟨hcanonical, hhere⟩ := directory_eq_some_iff.mp hp
  have hresolve : ∀ (n : ℕ) (names : List Name) (cur : Path),
      resolve files n cur names = some here →
        resolve files' n cur (names ++ [name]) = some (here ++ [name]) := by
    intro n
    induction n with
    | zero => exact walk_snoc hle hname hhere hdir (fun _ _ h => by cases h)
    | succ n ih => exact walk_snoc hle hname hhere hdir (fun cur names h => ih names cur h)
  exact directory_eq_some_iff.mpr ⟨hresolve 40 p [] hcanonical, hdir⟩

end Entering

end FileSystem
