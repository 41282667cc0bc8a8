import Mathlib.Data.List.DropRight
import TurrisBuild.Release.GitHash

/-!
# The feeds configuration

`feeds.conf` has one feed on a line: the kind of source, the name and the url,
where the url may end in `;branch` or `^commit`. `helpers/generate_common.sh`
reads it with `read`, `helpers/new_release.sh` edits it with `awk`, and
`compile_pkgs checkout` appends the file of the board to it.
-/

namespace TurrisBuild.Release

open Fields

/-- The characters in front of the reference of a url. -/
def isRefMark (c : Char) : Bool := c == ';' || c == '^'

/-- The url column of a line, empty when there is none. -/
def urlColumn (line : Line) : List Char := (fields line)[2]?.getD []

/-- The line has this kind and this name, as `read -r vcs name url rest` splits it. -/
def namesFeed (vcs name : List Char) (line : Line) : Bool :=
  (fields line)[0]? = some vcs ∧ (fields line)[1]? = some name

/-- `get_feed`: the url of the first line with the requested kind and name. -/
def getFeed (vcs name : List Char) (file : List Line) : Option (List Char) :=
  (file.find? (namesFeed vcs name)).map urlColumn

/-- `feed_url`: the url up to its last mark. -/
def feedUrl (url : List Char) : List Char :=
  if url.any isRefMark then (url.rdropWhile (!isRefMark ·)).dropLast else url

/-- `feed_ref`: what follows the last mark, or a name for the remote's head. -/
def feedRef (url : List Char) (fetch : Bool) : List Char :=
  if url.any isRefMark then url.rtakeWhile (!isRefMark ·)
  else if fetch then "FETCH_HEAD".toList else "HEAD".toList

/-- `feed_ref_is_branch`. -/
def feedRefIsBranch (url : List Char) : Bool := url.contains ';'

section Urls

variable {address r : List Char} {mark : Char}

/-- A url with a mark has a reference. -/
theorem any_mark (hmark : isRefMark mark = true) :
    (address ++ mark :: r).any isRefMark = true := by
  simp [hmark]

/-- The reference of a url with a mark. -/
theorem feedRef_mark (hmark : isRefMark mark = true) (hr : ∀ c ∈ r, isRefMark c = false)
    (fetch : Bool) : feedRef (address ++ mark :: r) fetch = r := by
  have hall : ∀ c ∈ r.reverse, (!isRefMark c) = true := by
    intro c hc
    simpa using hr c (List.mem_reverse.mp hc)
  rw [feedRef, if_pos (any_mark hmark), List.rtakeWhile, List.reverse_append, List.reverse_cons,
    List.append_assoc, List.takeWhile_append_of_pos hall]
  simp [hmark]

/-- The address of a url with a mark. -/
theorem feedUrl_mark (hmark : isRefMark mark = true) (hr : ∀ c ∈ r, isRefMark c = false) :
    feedUrl (address ++ mark :: r) = address := by
  have hall : ∀ c ∈ r.reverse, (!isRefMark c) = true := by
    intro c hc
    simpa using hr c (List.mem_reverse.mp hc)
  rw [feedUrl, if_pos (any_mark hmark), List.rdropWhile, List.reverse_append, List.reverse_cons,
    List.append_assoc, List.dropWhile_append_of_pos hall]
  simp [hmark]

/-- A url without a mark has none. -/
theorem any_plain (haddress : ∀ c ∈ address, isRefMark c = false) :
    address.any isRefMark = false := by
  simpa using haddress

/-- The address of a url without a reference. -/
theorem feedUrl_plain (haddress : ∀ c ∈ address, isRefMark c = false) :
    feedUrl address = address := by
  simp [feedUrl, any_plain haddress]

private theorem not_mem_semicolon {l : List Char} (hl : ∀ c ∈ l, isRefMark c = false) :
    ';' ∉ l :=
  fun hmem => absurd (hl _ hmem) (by decide)

/-- Only a semicolon says that the reference is a branch. -/
theorem feedRefIsBranch_mark (haddress : ∀ c ∈ address, isRefMark c = false)
    (hr : ∀ c ∈ r, isRefMark c = false) :
    feedRefIsBranch (address ++ mark :: r) = decide (mark = ';') := by
  simp only [feedRefIsBranch, List.contains_eq_mem, List.mem_append, List.mem_cons,
    not_mem_semicolon haddress, not_mem_semicolon hr, false_or, or_false]
  exact decide_eq_decide.mpr eq_comm

end Urls

/-- The url without everything from its first mark on, which is what
`gsub("[;^].*$", "", $3)` leaves. -/
def baseUrl (url : List Char) : List Char := url.takeWhile (!isRefMark ·)

/-- `awk` rebuilds the record from its fields only when the first substitution
changed the url column. -/
def stripReference (line : Line) : Line :=
  if baseUrl (urlColumn line) = urlColumn line then line
  else List.intercalate [' '] ((fields line).set 2 (baseUrl (urlColumn line)))

/-- The two substitutions on a line. The second one appends to the whole record;
an ampersand in it stands for the empty match. -/
def pinLine (hash : List Char) (line : Line) : Line :=
  stripReference line ++ '^' :: hash.filter (· != '&')

/-- A name that `awk` compares as it is written: it begins with a letter or an
underscore, so it is no number, and has no backslash, which `-v` would expand. -/
def PlainName (name : List Char) : Prop :=
  (name.head?.any fun c => c.isAlpha || c == '_') = true ∧ '\\' ∉ name

instance (name : List Char) : Decidable (PlainName name) := inferInstanceAs (Decidable (_ ∧ _))

/-- How an `awk` compares a column with a value of `-v`: numbers by their value,
and the value only after its escape sequences are expanded. -/
structure AwkComparison where
  equal : List Char → List Char → Bool
  equal_plain : ∀ column value, PlainName value → equal column value = decide (column = value)

/-- A comparison as it is for names that are no numbers. -/
def textComparison : AwkComparison where
  equal column value := column = value
  equal_plain _ _ _ := rfl

/-- The `awk` program of `feeds_conf_set` on one line. -/
def awkSetLine (awk : AwkComparison) (feed hash : List Char) (line : Line) : Line :=
  if (fields line)[1]?.any (awk.equal · feed) then pinLine hash line else line

/-- `feeds_conf_set`, with the comparison of `awk`. -/
def awkFeedsConfSet (awk : AwkComparison) (feed hash : List Char) (file : List Line) : List Line :=
  file.map (awkSetLine awk feed hash)

/-- The edits of `release`, with the entries of `FEEDS` in the order in which the shell
enumerates them. -/
def awkReleaseConf (awk : AwkComparison) (owrt lists : List Char) (order : Feeds)
    (file : List Line) : List Line :=
  order.foldl (fun file entry => awkFeedsConfSet awk entry.1 entry.2 file)
    (awkFeedsConfSet awk "updater-lists".toList lists
      (awkFeedsConfSet awk "openwrt".toList owrt file))

/-- The `feeds.conf` that `checkout` puts together for a board. -/
def checkoutConf (conf : List Line) (boardConf : Option (List Line)) : List Line :=
  match boardConf with
  | none => conf
  | some file => conf ++ [] :: file

end TurrisBuild.Release
