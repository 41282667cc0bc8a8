import Mathlib.Data.List.Infix
import TurrisBuild.Lib.History

/-!
# The pre-push hook

`.githooks/pre-push` reads one line for every pushed reference, remembers the
tips pushed to the three release branches, checks topic branches against the
merge bases of the local release branches, and finally compares the remembered
tips with one another and with the remote-tracking `hbd`.
-/

namespace TurrisBuild.Hook

open History

/-- An object name on a line of the hook's input: the all-zero name or a commit. -/
inductive Sha (C : Type*)
  /-- `zero_sha1`, which stands for a missing reference. -/
  | zero
  | commit (c : C)
  deriving DecidableEq

/-- One line of the hook's standard input. -/
structure PushLine (C : Type*) where
  localRef : List Char
  localSha1 : Sha C
  remoteRef : List Char
  remoteSha1 : Sha C

/-- The variables `push_hbk`, `push_hbl` and `push_hbd`; `none` is the empty string. -/
structure Pushed (C : Type*) where
  hbk : Option C
  hbl : Option C
  hbd : Option C

/-- The variables before the first line is read. -/
def Pushed.empty {C : Type*} : Pushed C := ⟨none, none, none⟩

/-- The reasons for which the hook exits with status 1. -/
inductive Refusal
  /-- A topic branch whose merge bases do not point to the expected branch. -/
  | invalidAncestor (base localRef : List Char)
  /-- A new remote reference of a name that no pattern covers. -/
  | newBranch (remoteRef : List Char)
  /-- The pushed `hbk` is not in the remote-tracking `hbd`. -/
  | hbkAlone
  /-- The comparison of the pushed `hbk` with the pushed `hbl` failed. -/
  | hbkNotInHbl
  /-- The pushed `hbk` is not in the pushed `hbd`. -/
  | hbkNotInHbd
  /-- The pushed `hbl` is not in the remote-tracking `hbd`. -/
  | hblAlone (withHbk : Bool)
  /-- The pushed `hbl` is not in the pushed `hbd`. -/
  | hblNotInHbd
  deriving DecidableEq

/-- The lines that the hook prints on standard error before it exits. -/
def Refusal.messages : Refusal → List (List Char)
  | .invalidAncestor base ref =>
    ["Reference has invalid ancestor, please base it on top of ".toList ++ base ++
      ": ".toList ++ ref]
  | .newBranch ref => ["Creation of new branch of this name is not allowed: ".toList ++ ref]
  | .hbkAlone =>
    ["HBL and HBD branches have to be always updated with HBK branch.".toList,
      "Push all of them at the same time with: git push origin hbk hbl hbd".toList]
  | .hbkNotInHbl => ["Tip commit of HBK is not merged to HBL branch.".toList]
  | .hbkNotInHbd => ["Tip commit of HBK is not merged to HBD branch.".toList]
  | .hblAlone withHbk =>
    ["HBL branch have to be always updated with HBD branch.".toList,
      if withHbk then "Push all of them at the same time with: git push origin hbk hbl hbd".toList
      else "Push all of them at the same time with: git push origin hbl hbd".toList]
  | .hblNotInHbd => ["Tip commit of HBL is not merged to HBD branch.".toList]

/-- The arms of the hook's `case` statement. -/
inductive RefClass
  | hbk
  | hbl
  | hbd
  /-- A topic branch with the branch it has to start from and the two others. -/
  | topic (base otherA otherB : List Char)
  | other
  deriving DecidableEq

/-- The expansion `remote_ref#refs/heads/`. -/
def stripHeads (ref : List Char) : List Char :=
  if "refs/heads/".toList.isPrefixOf ref then ref.drop "refs/heads/".toList.length else ref

/-- Some pattern of the form `prefix*` matches the name. -/
def hasPrefixIn (prefixes : List String) (name : List Char) : Bool :=
  prefixes.any fun p => p.toList.isPrefixOf name

/-- The arm of the `case` statement that a stripped reference selects. -/
def classify (name : List Char) : RefClass :=
  if name = "hbk".toList then .hbk
  else if name = "hbl".toList then .hbl
  else if name = "hbd".toList then .hbd
  else if hasPrefixIn ["hotfix/"] name then .topic "hbk".toList "hbl".toList "hbd".toList
  else if hasPrefixIn ["feature/", "bugfix/", "refactor/", "hack/"] name then
    .topic "hbl".toList "hbk".toList "hbd".toList
  else if hasPrefixIn ["majorfeature/", "fix/", "majorrefactor/", "majorhack/"] name then
    .topic "hbd".toList "hbk".toList "hbl".toList
  else .other

variable {C : Type*} [PartialOrder C] [DecidableLE C]

/-- `compare_ancestors`: one of the two other branches shares no more with the
commit than the branch it should start from. Removals pass. -/
def compareAncestors (repo : Repository C) (localHash : Sha C)
    (correct invalidA invalidB : List Char) : Bool :=
  match localHash with
  | .zero => true
  | .commit c =>
    let correctBase := repo.mergeBaseWith c correct
    isAncestor (repo.mergeBaseWith c invalidA) correctBase ||
      isAncestor (repo.mergeBaseWith c invalidB) correctBase

/-- One iteration of the loop over the pushed references. -/
def readLine (repo : Repository C) (pushed : Pushed C) (line : PushLine C) :
    Except Refusal (Pushed C) :=
  match line.localSha1 with
  | .zero => .ok pushed
  | .commit c =>
    match classify (stripHeads line.remoteRef) with
    | .hbk => .ok { pushed with hbk := some c }
    | .hbl => .ok { pushed with hbl := some c }
    | .hbd => .ok { pushed with hbd := some c }
    | .topic base otherA otherB =>
      if compareAncestors repo line.localSha1 base otherA otherB then .ok pushed
      else .error (.invalidAncestor base line.localRef)
    | .other =>
      match line.remoteSha1 with
      | .zero => .error (.newBranch (stripHeads line.remoteRef))
      | .commit _ => .ok pushed

/-- The loop over the pushed references, stopped by the first refused line. -/
def readLines (repo : Repository C) : Pushed C → List (PushLine C) → Except Refusal (Pushed C)
  | pushed, [] => .ok pushed
  | pushed, line :: lines =>
    match readLine repo pushed line with
    | .ok pushed => readLines repo pushed lines
    | .error refusal => .error refusal

/-- The checks made when `hbk` is pushed. The middle one is guarded by the test
`-z` on `push_hbl`, so it compares `hbk` with an empty name or not at all. -/
def checkHbk (tracking : Option C) (pushed : Pushed C) : Except Refusal Unit :=
  match pushed.hbk with
  | none => .ok ()
  | some hbk =>
    if (pushed.hbl.isNone || pushed.hbd.isNone) && !isAncestor (some hbk) tracking then
      .error .hbkAlone
    else if pushed.hbl.isNone && !isAncestor (some hbk) pushed.hbl then .error .hbkNotInHbl
    else if pushed.hbd.isSome && !isAncestor (some hbk) pushed.hbd then .error .hbkNotInHbd
    else .ok ()

/-- The checks made when `hbl` is pushed. -/
def checkHbl (tracking : Option C) (pushed : Pushed C) : Except Refusal Unit :=
  match pushed.hbl with
  | none => .ok ()
  | some hbl =>
    if pushed.hbd.isNone then
      if isAncestor (some hbl) tracking then .ok () else .error (.hblAlone pushed.hbk.isSome)
    else if isAncestor (some hbl) pushed.hbd then .ok () else .error .hblNotInHbd

/-- The name of the remote-tracking `hbd` of a remote. -/
def trackingName (remoteName : List Char) : List Char := remoteName ++ "/hbd".toList

/-- The remote url contains the name of one of the two servers that the hook guards. -/
def guardsUrl (remoteUrl : List Char) : Bool :=
  ["gitlab.nic.cz", "gitlab.labs.nic.cz"].any fun server =>
    remoteUrl.tails.any fun rest => server.toList.isPrefixOf rest

/-- The whole hook: `.ok` is exit status 0. -/
def prePush (repo : Repository C) (remoteName remoteUrl : List Char) (lines : List (PushLine C)) :
    Except Refusal Unit :=
  if guardsUrl remoteUrl then
    match readLines repo Pushed.empty lines with
    | .error refusal => .error refusal
    | .ok pushed =>
      let tracking := repo.revParse (trackingName remoteName)
      match checkHbk tracking pushed with
      | .error refusal => .error refusal
      | .ok () => checkHbl tracking pushed
  else .ok ()

end TurrisBuild.Hook
