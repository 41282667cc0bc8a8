import Mathlib.Data.List.DropRight
import TurrisBuild.Lib.Fields

/-!
# Reading the git-hash files of a build

A build publishes, for every board, a `git-hash` file next to its packages and
another next to its lists. `helpers/new_release.sh` reads them back with `awk`
and `sed`, compares the boards with one another, and collects the commits of
all feeds in the associative array `FEEDS`.
-/

namespace TurrisBuild.Release

open Fields

/-- A line of a text file, without its newline. -/
abbrev Line := List Char

/-- The boards of `BOARDS`. -/
inductive Board
  | omniaNg
  | mox
  | omnia
  | turris1x
  deriving DecidableEq, Repr

/-- `BOARDS`, whose first entry is the primary board. -/
def boards : List Board := [.omniaNg, .mox, .omnia, .turris1x]

/-- The name of a board as the script spells it. -/
def Board.name : Board → List Char
  | .omniaNg => "omnia-ng".toList
  | .mox => "mox".toList
  | .omnia => "omnia".toList
  | .turris1x => "turris1x".toList

/-- All boards are in the list. -/
@[simp] theorem mem_boards (b : Board) : b ∈ boards := by cases b <;> decide

/-- The fetched files: `git-hash-packages-BOARD` and `git-hash-lists-BOARD`. -/
structure GitHashFiles where
  packages : Board → List Line
  lists : Board → List Line

/-- `git_hash`: the third field of the first line whose second field is the
name with a colon, and nothing if there is no such line. -/
def gitHash (file : List Line) (feed : List Char) : List Char :=
  match file.find? fun line => (fields line)[1]? = some (feed ++ [':']) with
  | some line => (fields line)[2]?.getD []
  | none => []

/-- The disagreements that are reported; each of them makes its function return 1. -/
inductive Mismatch
  | tbPackages (board : Board) (bHash pHash : List Char)
  | tbLists (board : Board) (lHash bHash : List Char)
  | openwrt (board : Board) (tHash pHash : List Char)
  | updaterLists (board : Board) (tHash pHash : List Char)
  | feed (name : List Char) (board : Board) (known hsh : List Char)
  deriving DecidableEq

private def pair (x y : List Char) : List Char := x ++ " / ".toList ++ y ++ ")".toList

/-- The text that `error` prints for a disagreement. -/
def Mismatch.message : Mismatch → List Char
  | .tbPackages board b p =>
    "Turris build used to generate packages is not same as for ".toList ++ Board.omniaNg.name ++
      " board: ".toList ++ board.name ++ " (".toList ++ pair b p
  | .tbLists board l b =>
    "Turris build used to generate lists is not same as for packages for board: ".toList ++
      board.name ++ " (".toList ++ pair l b
  | .openwrt board t p =>
    "Different OpenWrt commit build for board: ".toList ++ board.name ++ " (".toList ++ pair t p
  | .updaterLists board t p =>
    "Different Updater's Lists commit build for board: ".toList ++ board.name ++
      " (".toList ++ pair t p
  | .feed name board known hsh =>
    "Different feed (".toList ++ name ++ ") commit compiled for ".toList ++ board.name ++
      " (".toList ++ pair known hsh

/-! ### The three hashes that all boards share -/

/-- The assignment `[ -n "${p_hash:-}" ] || p_hash=...`: the primary hash is the
first one that is not empty. -/
def pickPrimary (primary hash : List Char) : List Char :=
  if primary.isEmpty then hash else primary

/-- One iteration of the loops of `owrt_hash` and `lists_hash`. -/
def hashStep (mismatch : Board → List Char → List Char → Mismatch) (hash : Board → List Char)
    (s : List Char × List Mismatch) (board : Board) : List Char × List Mismatch :=
  let primary := pickPrimary s.1 (hash board)
  (primary, if primary = hash board then s.2 else s.2 ++ [mismatch board (hash board) primary])

/-- The `openwrt` hash of a board's packages. -/
def owrtPackages (files : GitHashFiles) (b : Board) : List Char :=
  gitHash (files.packages b) "openwrt".toList

/-- `owrt_hash`: the hash it prints and what it reports. -/
def owrtHash (files : GitHashFiles) : List Char × List Mismatch :=
  boards.foldl (hashStep .openwrt (owrtPackages files)) ([], [])

/-- The `updater-lists` hash of a board's lists. -/
def updaterLists (files : GitHashFiles) (b : Board) : List Char :=
  gitHash (files.lists b) "updater-lists".toList

/-- `lists_hash`: the hash it prints and what it reports. -/
def listsHash (files : GitHashFiles) : List Char × List Mismatch :=
  boards.foldl (hashStep .updaterLists (updaterLists files)) ([], [])

/-- The `turris-build` hash of a board's packages. -/
def tbPackages (files : GitHashFiles) (b : Board) : List Char :=
  gitHash (files.packages b) "turris-build".toList

/-- The `turris-build` hash of a board's lists. -/
def tbLists (files : GitHashFiles) (b : Board) : List Char :=
  gitHash (files.lists b) "turris-build".toList

/-- One iteration of `tb_hash`, which also compares the lists with the packages. -/
def tbStep (files : GitHashFiles) (s : List Char × List Mismatch) (board : Board) :
    List Char × List Mismatch :=
  let s := hashStep .tbPackages (tbPackages files) s board
  (s.1, if tbPackages files board = tbLists files board then s.2
    else s.2 ++ [.tbLists board (tbLists files board) (tbPackages files board)])

/-- `tb_hash`: the hash it prints and what it reports. -/
def tbHash (files : GitHashFiles) : List Char × List Mismatch :=
  boards.foldl (tbStep files) ([], [])

/-! ### The feeds -/

/-- The `sed` command of `feeds`. The name reaches to the first colon, and one
character other than a backslash and `s` has to follow the space, since `\s` is
no class inside brackets; everything after the match is kept. -/
def feedLine (line : Line) : Option Line :=
  if " * feeds/".toList.isPrefixOf line then
    let rest := line.drop " * feeds/".toList.length
    let name := rest.takeWhile (· != ':')
    if name.isEmpty then none
    else
      match rest.dropWhile (· != ':') with
      | ':' :: ' ' :: c :: tail =>
        if c = '\\' ∨ c = 's' then none else some (name ++ ' ' :: c :: tail)
      | _ => none
  else none

/-- `read -r feed hsh`: the first word and the rest without surrounding blanks. -/
def readPair (line : Line) : List Char × List Char :=
  let line := line.dropWhile isBlank
  (line.takeWhile (!isBlank ·),
    ((line.dropWhile (!isBlank ·)).dropWhile isBlank).rdropWhile isBlank)

/-- The feeds that a packages git-hash file records, with their hashes. -/
def feedRecords (file : List Line) : List (List Char × List Char) :=
  (file.filterMap feedLine).map readPair

/-- What the loop of `feeds` reads from its here-string, which holds one empty
line when `sed` printed nothing. -/
def hereString (file : List Line) : List (List Char × List Char) :=
  if (feedRecords file).isEmpty then [readPair []] else feedRecords file

/-- The array `FEEDS` as an association list. -/
abbrev Feeds := List (List Char × List Char)

/-- `FEEDS["$feed"]="$hsh"`. -/
def Feeds.assign (feeds : Feeds) (feed hsh : List Char) : Feeds :=
  feeds.filter (fun p => p.1 ≠ feed) ++ [(feed, hsh)]

/-- One iteration of the inner loop of `feeds`. The subscripts are taken as they
are written, and an empty one is an error that ends the whole script. -/
def feedsStep (board : Board) (s : Feeds × List Mismatch) (record : List Char × List Char) :
    Option (Feeds × List Mismatch) :=
  if record.1.isEmpty then none
  else
    match s.1.lookup record.1 with
    | some known =>
      some (s.1, if record.2 = known then s.2 else s.2 ++ [.feed record.1 board known record.2])
    | none => some (Feeds.assign s.1 record.1 record.2, s.2)

/-- `feeds`: the collected array and what it reports, or `none` when the script
ends with an error. -/
def feeds (files : GitHashFiles) : Option (Feeds × List Mismatch) :=
  boards.foldlM (fun s board => (hereString (files.packages board)).foldlM (feedsStep board) s)
    ([], [])

/-- `verify` after the files are fetched: the exit status of the script. -/
def verify (files : GitHashFiles) : ℕ :=
  match feeds files with
  | none => 1
  | some (_, reported) =>
    if (tbHash files).2 = [] ∧ (owrtHash files).2 = [] ∧ (listsHash files).2 = [] ∧ reported = []
    then 0 else 1

end TurrisBuild.Release
