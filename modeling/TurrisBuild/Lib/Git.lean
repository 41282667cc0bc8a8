import Mathlib.Data.List.Basic
import Mathlib.Logic.Function.Basic

/-!
# Clones of a git repository

A clone with one remote: its own branches and tags, the tracking branches of the
remote, and what the last fetch has left in `FETCH_HEAD`. This file defines the
two ways to fetch and the ways to check out that matter for scripts, where the
order in which a bare name is looked up is the point. Commits are ordered by
ancestry; a clone has a commit if it is in the history of one it has fetched.
-/

namespace Git

variable {N C : Type*}

/-- The branches and tags of a repository, in the order of their names. -/
structure Refs (N C : Type*) [LT N] where
  branches : List (N × C)
  tags : List (N × C)
  branches_sorted : (branches.map Prod.fst).Pairwise (· < ·)
  tags_sorted : (tags.map Prod.fst).Pairwise (· < ·)

/-- A repository to fetch from, whose `HEAD` is the name of a branch. -/
structure Source (N C : Type*) [LT N] extends Refs N C where
  head : N

/-- What is checked out: nothing yet, a branch, or a commit without a branch. -/
inductive Head (N C : Type*)
  | unborn
  | branch (n : N)
  | detached (c : C)

/-- A clone. Its branches follow the remote branches of the same names. -/
structure Clone (N C : Type*) where
  head : Head N C
  branches : N → Option C
  tracking : N → Option C
  tags : N → Option C
  /-- The first entry of `FETCH_HEAD`. -/
  fetchHead : Option C
  /-- The commits that were fetched, with their histories. -/
  tips : List C

/-- `git init` with a remote that was not fetched yet. -/
def Clone.init : Clone N C := ⟨.unborn, fun _ => none, fun _ => none, fun _ => none, none, []⟩

/-- The commit that is checked out. -/
def Clone.headCommit (clone : Clone N C) : Option C :=
  match clone.head with
  | .unborn => none
  | .branch n => clone.branches n
  | .detached c => some c

section Refs

variable [LT N] [DecidableEq N]

/-- The commit of a branch. -/
def Refs.branch (refs : Refs N C) (n : N) : Option C := refs.branches.lookup n

/-- The commit of a tag. -/
def Refs.tag (refs : Refs N C) (n : N) : Option C := refs.tags.lookup n

/-- The commit at the `HEAD` of a repository. -/
def Source.headCommit (src : Source N C) : Option C := src.branch src.head

end Refs

section Fetch

variable [LT N] [DecidableEq N]

/-- `git fetch origin NAME`: a tag goes before a branch, and only a branch updates
its tracking branch. No tag is stored. -/
def Clone.fetchRef (clone : Clone N C) (src : Refs N C) (n : N) : Option (Clone N C) :=
  match src.tag n with
  | some t => some { clone with fetchHead := some t, tips := t :: clone.tips }
  | none =>
    (src.branch n).map fun b =>
      { clone with
        tracking := Function.update clone.tracking n (some b)
        fetchHead := some b
        tips := b :: clone.tips }

/-- `git fetch origin HEAD` -/
def Clone.fetchRemoteHead (clone : Clone N C) (src : Source N C) : Option (Clone N C) :=
  src.headCommit.map fun c => { clone with fetchHead := some c, tips := c :: clone.tips }

/-- The first entry of `FETCH_HEAD` after a fetch of all branches: the branch that is
checked out, if the remote has it, and else the first of the branches. -/
def Clone.firstFetched (clone : Clone N C) (src : Refs N C) : Option C :=
  (match clone.head with
    | .branch n => src.branch n
    | _ => none).or (src.branches.head?.map Prod.snd)

variable [LE C] [DecidableLE C]

/-- The commit is in the history of a branch or tag. -/
def Refs.reaches (src : Refs N C) (c : C) : Bool :=
  src.branches.any (c ≤ ·.2) || src.tags.any (c ≤ ·.2)

/-- `git fetch origin COMMIT` -/
def Clone.fetchCommit (clone : Clone N C) (src : Refs N C) (c : C) : Option (Clone N C) :=
  if src.reaches c then
    some { clone with fetchHead := some c, tips := c :: clone.tips }
  else none

/-- The clone has the commit after a fetch of all branches. -/
def Clone.Gets (clone : Clone N C) (src : Refs N C) (c : C) : Prop :=
  ∃ tip ∈ src.branches.map Prod.snd ++ clone.tips, c ≤ tip

instance (clone : Clone N C) (src : Refs N C) (c : C) : Decidable (clone.Gets src c) :=
  inferInstanceAs (Decidable (∃ tip ∈ src.branches.map Prod.snd ++ clone.tips, c ≤ tip))

/-- `git fetch origin`: every branch updates its tracking branch, tracking branches
of deleted ones stay, and a tag is stored if there is none of its name yet and the
clone has its commit. -/
def Clone.fetchAll (clone : Clone N C) (src : Refs N C) : Clone N C :=
  { clone with
    tracking := fun n => (src.branch n).or (clone.tracking n)
    tags := fun n => (clone.tags n).or ((src.tag n).filter (clone.Gets src ·))
    fetchHead := clone.firstFetched src
    tips := src.branches.map Prod.snd ++ clone.tips }

end Fetch

section Checkout

/-- `git checkout -f FETCH_HEAD` -/
def Clone.checkoutFetchHead (clone : Clone N C) : Option (Clone N C) :=
  clone.fetchHead.map fun c => { clone with head := .detached c }

/-- What is checked out after `git checkout -f FETCH_HEAD`. -/
theorem Clone.checkoutFetchHead_bind (clone : Clone N C) :
    clone.checkoutFetchHead.bind Clone.headCommit = clone.fetchHead := by
  cases h : clone.fetchHead <;> simp [checkoutFetchHead, headCommit, h]

variable [DecidableEq N]

/-- `git checkout -f NAME`, where the name may be the hash of a commit: a branch of
the clone goes first, then the commit, then a tag. A name that is none of these
but that of a tracking branch becomes a branch. -/
def Clone.checkout [LE C] [DecidableLE C] (clone : Clone N C) (n : N) (hash : Option C) :
    Option (Clone N C) :=
  if (clone.branches n).isSome then some { clone with head := .branch n }
  else
    match hash with
    | some c => if clone.tips.any (c ≤ ·) then some { clone with head := .detached c } else none
    | none =>
      match clone.tags n with
      | some t => some { clone with head := .detached t }
      | none =>
        (clone.tracking n).map fun o =>
          { clone with head := .branch n, branches := Function.update clone.branches n (some o) }

variable [LE C] [DecidableLE C]

/-- What is checked out after `git checkout -f NAME`, for a name that is no hash. -/
theorem Clone.checkout_name_bind (clone : Clone N C) (n : N) :
    (clone.checkout n none).bind Clone.headCommit =
      (clone.branches n).or ((clone.tags n).or (clone.tracking n)) := by
  unfold checkout
  cases hbranch : clone.branches n with
  | some l => simp [headCommit, hbranch]
  | none =>
    cases htag : clone.tags n with
    | some t => simp [headCommit]
    | none => cases htracking : clone.tracking n <;> simp [headCommit]

/-- What is checked out after `git checkout -f HASH`. -/
theorem Clone.checkout_hash_bind (clone : Clone N C) (n : N) (c : C) :
    (clone.checkout n (some c)).bind Clone.headCommit =
      (clone.branches n).or (if clone.tips.any (c ≤ ·) then some c else none) := by
  unfold checkout
  cases hbranch : clone.branches n with
  | some l => simp [headCommit, hbranch]
  | none => by_cases hhas : clone.tips.any (c ≤ ·) <;> simp [headCommit, hhas]

/-- A checkout that succeeds checks something out. -/
theorem Clone.headCommit_isSome_of_checkout {clone after : Clone N C} {n : N} {hash : Option C}
    (h : clone.checkout n hash = some after) : after.headCommit.isSome := by
  unfold checkout at h
  split at h
  next hbranch =>
    obtain rfl := Option.some.inj h
    exact hbranch
  next =>
    cases hash with
    | some c =>
      simp only at h
      split at h
      · obtain rfl := Option.some.inj h
        rfl
      · cases h
    | none =>
      cases htag : clone.tags n with
      | some t =>
        simp only [htag] at h
        obtain rfl := Option.some.inj h
        rfl
      | none =>
        simp only [htag] at h
        obtain ⟨o, -, rfl⟩ := Option.map_eq_some_iff.mp h
        simp [headCommit]

end Checkout

end Git
