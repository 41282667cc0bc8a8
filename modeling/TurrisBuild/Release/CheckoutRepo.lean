import Mathlib.Data.List.Pairwise
import TurrisBuild.Release.Pinning

/-!
# Two ways to pin the feeds

`helpers/checkout_repo_branch.sh` rewrites `feeds.conf` in one loop of the shell,
`helpers/new_release.sh` edits it with one `awk` for each feed. The loop replaces
the reference of the url, while the edit appends the commit to the whole line, so
that they agree exactly on lines that end with their url.
-/

namespace TurrisBuild.Release

open Fields

/-- A map from repositories to commits: the lines `name:commit` of `hashes`, one for
each name. Names have no colon. -/
structure HashMap where
  records : Feeds
  once : (records.map Prod.fst).Nodup
  isHash : ∀ record ∈ records, IsHash record.2
  noColon : ∀ record ∈ records, ':' ∉ record.1

/-- The commit of a repository. -/
def HashMap.hash? (m : HashMap) (name : List Char) : Option (List Char) :=
  (m.records.find? fun record => record.1 = name).map Prod.snd

/-- The lines that `get_hash` prints: the commits of all records whose name is equal to
the requested one for `awk`. -/
def HashMap.getHash (awk : AwkComparison) (m : HashMap) (name : List Char) : List (List Char) :=
  (m.records.filter fun record => awk.equal record.1 name).map Prod.snd

/-- A configuration of feeds: blank lines, lines with a number sign and feeds. -/
structure FeedsFile where
  lines : List Line
  kinds : ∀ line ∈ lines, fields line = [] ∨
    ['#'] <+: (fields line).headD [] ∨ "src-".toList <+: (fields line).headD []

/-- A feed or a pseudo-feed: its kind, its name and a url that is more than a reference. -/
def IsEntry (line : Line) : Prop :=
  ((fields line)[0]? = some ['#'] ∨ "src-".toList <+: (fields line).headD []) ∧
    3 ≤ (fields line).length ∧ baseUrl (urlColumn line) ≠ []

instance (line : Line) : Decidable (IsEntry line) := inferInstanceAs (Decidable (_ ∧ _))

/-- The variables of `read -r tp name url vars`. -/
structure ReadLine where
  tp : List Char
  name : List Char
  url : List Char
  vars : List Char

/-- `read -r tp name url vars` -/
def readLine (line : Line) : ReadLine :=
  let tp := nextWord line
  let name := nextWord tp.2
  let url := nextWord name.2
  ⟨tp.1, name.1, url.1, (url.2.dropWhile isBlank).rdropWhile isBlank⟩

/-- The repository that a line stands for. -/
def fullname (tp name : List Char) : List Char :=
  if tp = ['#'] then name else "feeds/".toList ++ name

/-- The lines that one round of the loop prints. The source replaces the reference
twice, which is the same as once. No first word of a line is an option of `echo`. When
`get_hash` prints several commits, the later ones are on lines of their own. -/
def rewriteLine (awk : AwkComparison) (m : HashMap) (line : Line) : List Line :=
  let l := readLine line
  match m.getHash awk (fullname l.tp l.name) with
  | [] => [l.tp ++ ' ' :: l.name ++ ' ' :: l.url ++ ' ' :: l.vars]
  | [githash] =>
    [l.tp ++ ' ' :: l.name ++ ' ' :: (baseUrl l.url ++ '^' :: githash) ++ ' ' :: l.vars]
  | githash :: further :: more =>
    (l.tp ++ ' ' :: l.name ++ ' ' :: (baseUrl l.url ++ '^' :: githash)) ::
      ((further :: more).dropLast ++ [(further :: more).getLastD [] ++ ' ' :: l.vars])

/-- The loop of `checkout_repo_branch.sh`: what it prints for each line. -/
def rewriteConf (awk : AwkComparison) (m : HashMap) (file : FeedsFile) : List (List Line) :=
  file.lines.map (rewriteLine awk m)

/-- The repository that a line stands for, by its first two columns. -/
def repository (line : Line) : List Char :=
  fullname ((fields line).headD []) ((fields line)[1]?.getD [])

/-- The commit of the repository that a line stands for. -/
def HashMap.mapped? (m : HashMap) (line : Line) : Option (List Char) := m.hash? (repository line)

/-- The feeds and pseudo-feeds of the file that are mapped, with their commits. -/
def mappedEntries (m : HashMap) (file : FeedsFile) : Feeds :=
  (file.lines.filter (IsEntry ·)).filterMap fun line =>
    (m.mapped? line).map fun h => ((fields line)[1]?.getD [], h)

/-- The commit that `awk` finds first for the repository that a line stands for. -/
def HashMap.found? (awk : AwkComparison) (m : HashMap) (line : Line) : Option (List Char) :=
  (m.getHash awk (repository line)).head?

/-- `feeds_conf_set` for one mapped feed after the other. -/
def setConf (awk : AwkComparison) (edits : Feeds) (file : FeedsFile) : List Line :=
  edits.foldl (fun lines edit => awkFeedsConfSet awk edit.1 edit.2 lines) file.lines

/-- The columns `vcs`, `name` and `url` of `read -r vcs name url rest`. -/
def columns (line : Line) : List (List Char) := (fields line).take 3

/-- Both results have the same columns for every feed and pseudo-feed, and those
that are mapped have their commit. The first line that the loop prints is that of the
feed; any further one begins with a commit. -/
def Agree (m : HashMap) (file : FeedsFile) (rewritten : List (List Line)) (edited : List Line) :
    Prop :=
  ∀ (i : ℕ) (line : Line), file.lines[i]? = some line → IsEntry line →
    ∃ printed ∈ rewritten[i]?, ∃ left ∈ printed.head?, ∃ right ∈ edited[i]?,
      columns left = columns right ∧ ∀ h ∈ m.mapped? line, RefersTo (urlColumn left) h

/-- The url refers to the commit already. -/
def AtCommit (line : Line) (hash : List Char) : Prop :=
  urlColumn line = baseUrl (urlColumn line) ++ '^' :: hash

instance (line : Line) (hash : List Char) : Decidable (AtCommit line hash) :=
  inferInstanceAs (Decidable (_ = _))

/-- The loop leaves a mapped entry at its commit: that is what `awk` finds for it, or it
finds nothing and the url refers to the commit already. -/
def LooksUp (awk : AwkComparison) (m : HashMap) (line : Line) : Prop :=
  ∀ h ∈ m.mapped? line,
    m.found? awk line = some h ∨ m.found? awk line = none ∧ RefersTo (urlColumn line) h

/-- When both ways leave the same url of an entry. One for which `awk` finds a commit is
fit to be pinned and no edit of another commit matches its name; where `awk` does not
even match the name with itself, the url has the commit already. On another entry an
edit that matches its name has nothing to change. -/
def PinnedAlike (awk : AwkComparison) (m : HashMap) (file : FeedsFile) (line : Line) : Prop :=
  match m.found? awk line with
  | some h =>
    (matching awk line (mappedEntries m file) = [] → AtCommit line h) ∧
      ∀ edit ∈ matching awk line (mappedEntries m file), PinsLine line ∧ edit.2 = h
  | none =>
    ∀ edit ∈ matching awk line (mappedEntries m file),
      if PinsLine line then AtCommit line edit.2 else (urlColumn line).any isRefMark = false

/-! ### The loop of the shell -/

/-- An entry has at least its three columns. -/
theorem IsEntry.fields_eq {line : Line} (hline : IsEntry line) :
    ∃ vcs name url rest, fields line = vcs :: name :: url :: rest ∧ baseUrl url ≠ [] := by
  obtain ⟨-, hlength, hbase⟩ := hline
  match hfields : fields line with
  | vcs :: name :: url :: rest =>
    refine ⟨vcs, name, url, rest, rfl, ?_⟩
    simpa [urlColumn, hfields] using hbase
  | [_, _] | [_] | [] => simp [hfields] at hlength

/-- The variables of `read` are the first columns of the line. -/
theorem readLine_of_fields {line : Line} {vcs name url : List Char} {rest : List (List Char)}
    (hfields : fields line = vcs :: name :: url :: rest) :
    (readLine line).tp = vcs ∧ (readLine line).name = name ∧ (readLine line).url = url := by
  obtain ⟨hvcs, hfields⟩ := nextWord_of_fields hfields
  obtain ⟨hname, hfields⟩ := nextWord_of_fields hfields
  exact ⟨hvcs, hname, (nextWord_of_fields hfields).1⟩

private theorem isHash_of_mem_getHash {awk : AwkComparison} {m : HashMap} {name h : List Char}
    (hh : h ∈ m.getHash awk name) : IsHash h := by
  obtain ⟨record, hrecord, rfl⟩ := List.mem_map.mp hh
  exact m.isHash record (List.mem_of_mem_filter hrecord)

/-- A commit that is found is one. -/
theorem isHash_of_found {awk : AwkComparison} {m : HashMap} {line : Line} {h : List Char}
    (hh : m.found? awk line = some h) : IsHash h :=
  isHash_of_mem_getHash (List.mem_of_mem_head? (Option.mem_def.mpr hh))

/-- A commit of the map is one. -/
theorem isHash_of_mapped {m : HashMap} {line : Line} {h : List Char}
    (hh : m.mapped? line = some h) : IsHash h := by
  obtain ⟨record, hrecord, rfl⟩ := Option.map_eq_some_iff.mp hh
  exact m.isHash record (List.mem_of_find?_eq_some hrecord)

/-- The loop replaces the reference of an entry for which `awk` finds a commit. -/
theorem columns_rewriteLine (awk : AwkComparison) (m : HashMap) {line : Line}
    {vcs name url : List Char} {rest : List (List Char)}
    (hfields : fields line = vcs :: name :: url :: rest) (hbase : baseUrl url ≠ []) :
    ∃ left, (rewriteLine awk m line).head? = some left ∧ columns left = [vcs, name,
      match m.found? awk line with
      | some h => baseUrl url ++ '^' :: h
      | none => url] := by
  obtain ⟨htp, hname, hurl⟩ := readLine_of_fields hfields
  have hword (w : List Char) (hw : w ∈ vcs :: name :: url :: rest) : IsWord w :=
    isWord_of_mem_fields (s := line) (by rwa [hfields])
  have hvcs := (hword vcs (by simp)).fields_eq
  have hsecond := (hword name (by simp)).fields_eq
  have hthird : IsWord url := hword url (by simp)
  have hfound : m.found? awk line = (m.getHash awk (fullname vcs name)).head? := by
    simp [HashMap.found?, repository, hfields]
  have hpinned (h : List Char) (hh : h ∈ m.getHash awk (fullname vcs name)) :
      IsWord (baseUrl url ++ '^' :: h) := by
    have hnoblank := noBlank_of_hex (isHash_of_mem_getHash hh).2
    refine ⟨by simp, fun c hc => ?_⟩
    simp only [List.mem_append, List.mem_cons] at hc
    rcases hc with hc | rfl | hc
    · exact (baseUrl_isWord hthird hbase).2 c hc
    · decide
    · exact hnoblank c hc
  simp only [rewriteLine, htp, hname, hurl, hfound]
  match hget : m.getHash awk (fullname vcs name) with
  | [] =>
    refine ⟨_, rfl, ?_⟩
    rw [columns, fields_append_cons _ _ rfl, fields_append_cons _ _ rfl,
      fields_append_cons _ _ rfl, hvcs, hsecond, hthird.fields_eq]
    rfl
  | [h] =>
    have hurl' := (hpinned h (by simp [hget])).fields_eq
    refine ⟨_, rfl, ?_⟩
    rw [columns, fields_append_cons _ _ rfl, fields_append_cons _ _ rfl,
      fields_append_cons _ _ rfl, hvcs, hsecond, hurl']
    rfl
  | h :: h' :: more =>
    have hurl' := (hpinned h (by simp [hget])).fields_eq
    refine ⟨_, rfl, ?_⟩
    rw [columns, fields_append_cons _ _ rfl, fields_append_cons _ _ rfl, hvcs, hsecond, hurl']
    rfl

/-- What the loop prints behind the line of a feed is no feed. -/
theorem not_isEntry_of_mem_tail {awk : AwkComparison} {m : HashMap} {line printed : Line}
    (hprinted : printed ∈ (rewriteLine awk m line).tail) : ¬IsEntry printed := by
  have hhash {h : List Char} (hh : IsHash h) (vars : List Char)
      (hkind : (fields (h ++ vars))[0]? = some h) : ¬IsEntry (h ++ vars) := by
    rintro ⟨hsrc, -⟩
    have hhead : (fields (h ++ vars)).headD [] = h := by
      match hfields : fields (h ++ vars) with
      | [] => simp [hfields] at hkind
      | w :: ws => simpa [hfields] using hkind
    rw [hkind, hhead] at hsrc
    rcases hsrc with hnumber | ⟨rest, hrest⟩
    · have hmem : '#' ∈ h := by simp [Option.some.inj hnumber]
      exact absurd (hh.2 _ hmem) (by decide)
    · have hmem : 's' ∈ h := by simp [← hrest]
      exact absurd (hh.2 _ hmem) (by decide)
  have hword {h : List Char} (hh : IsHash h) : fields h = [h] :=
    IsWord.fields_eq ⟨hh.1, noBlank_of_hex hh.2⟩
  simp only [rewriteLine] at hprinted
  match hget : m.getHash awk (fullname (readLine line).tp (readLine line).name) with
  | [] | [_] => simp [hget] at hprinted
  | h :: h' :: more =>
    have hall : ∀ g ∈ h :: h' :: more, IsHash g := fun g hg =>
      isHash_of_mem_getHash (hget ▸ hg)
    simp only [hget, List.tail_cons, List.mem_append, List.mem_singleton] at hprinted
    rcases hprinted with hprinted | rfl
    · have hmem := hall printed (List.mem_cons_of_mem _ (List.dropLast_subset _ hprinted))
      have hnot := hhash hmem [] (by simp [hword hmem])
      simpa using hnot
    · have hlast := hall _ (List.mem_cons_of_mem _
        (List.getLast_mem (List.cons_ne_nil h' more)))
      rw [List.getLastD_eq_getLast?, List.getLast?_eq_some_getLast (List.cons_ne_nil h' more),
        Option.getD_some]
      refine hhash hlast _ ?_
      rw [fields_append_cons _ _ rfl, hword hlast]
      rfl

/-! ### The edits -/

/-- Of several edits on a line the last one shows in its columns. -/
theorem columns_editLine {vcs name base hash : List Char} {line : Line}
    (hline : Keeps vcs name base (PinsLine line) line) (hbase : base ≠ [])
    {before : List (List Char)} (hbefore : ∀ h ∈ before, ∀ c ∈ h, isBlank c = false)
    (hhash : IsHash hash) :
    columns (editLine (before ++ [hash]) line) =
      [vcs, name, if PinsLine line then base ++ '^' :: hash else base] := by
  obtain ⟨⟨url, rest, hfields, rfl⟩, hpins⟩ := hline.editLine hbase hbefore
  obtain ⟨hyes, hno⟩ := fields_pinLine hfields hbase (noBlank_of_hex hhash.2)
  rw [filter_ampersand_of_hex hhash.2] at hyes
  have hrun : editLine (before ++ [hash]) line = pinLine hash (editLine before line) := by
    rw [editLine, List.foldl_append]
    rfl
  rw [hrun]
  by_cases hp : PinsLine line
  · simp [columns, hyes (hpins.mpr hp), hp]
  · obtain ⟨e, es, hes⟩ := hno (mt hpins.mp hp)
    simp [columns, hes, hp]

/-! ### The entries of the file -/

/-- An entry that is mapped is among the edits, and every edit is one. -/
theorem mem_mappedEntries {m : HashMap} {file : FeedsFile} {edit : List Char × List Char} :
    edit ∈ mappedEntries m file ↔ ∃ line ∈ file.lines, IsEntry line ∧
      (fields line)[1]? = some edit.1 ∧ m.mapped? line = some edit.2 := by
  obtain ⟨name, hash⟩ := edit
  simp only [mappedEntries, List.mem_filterMap, List.mem_filter, decide_eq_true_eq,
    Option.map_eq_some_iff, Prod.mk.injEq]
  constructor
  · rintro ⟨line, ⟨hmem, hentry⟩, h, hmapped, hname, rfl⟩
    obtain ⟨vcs, second, url, rest, hfields, -⟩ := hentry.fields_eq
    refine ⟨line, hmem, hentry, ?_, hmapped⟩
    simpa [hfields] using hname
  · rintro ⟨line, hmem, hentry, hname, hmapped⟩
    exact ⟨line, ⟨hmem, hentry⟩, hash, hmapped, by simp [hname], rfl⟩

/-! ### Agreement -/

private theorem mappedEntries_isHash {m : HashMap} {file : FeedsFile} {edits : Feeds}
    (hedits : edits.Perm (mappedEntries m file)) : ∀ edit ∈ edits, IsHash edit.2 := by
  intro edit hedit
  obtain ⟨line, -, -, -, hmapped⟩ := mem_mappedEntries.mp (hedits.mem_iff.mp hedit)
  exact isHash_of_mapped hmapped

/-- The url that the loop leaves of an entry. -/
private def loopUrl (awk : AwkComparison) (m : HashMap) (line : Line) : List Char :=
  match m.found? awk line with
  | some h => baseUrl (urlColumn line) ++ '^' :: h
  | none => urlColumn line

/-- The url that an edit of some commit leaves of an entry. -/
private def editUrl (line : Line) (hash : List Char) : List Char :=
  if PinsLine line then baseUrl (urlColumn line) ++ '^' :: hash else baseUrl (urlColumn line)

/-- The columns after the edits in some order. -/
private theorem columns_awkEditLine {awk : AwkComparison} {m : HashMap} {file : FeedsFile}
    {line : Line} {vcs name url : List Char} {rest : List (List Char)}
    (hfields : fields line = vcs :: name :: url :: rest) (hbase : baseUrl url ≠ [])
    {edits : Feeds} (hedits : edits.Perm (mappedEntries m file)) :
    columns (awkEditLine awk edits line) = [vcs, name,
      match (matching awk line edits).getLast? with
      | some edit => editUrl line edit.2
      | none => urlColumn line] := by
  have hurl : urlColumn line = url := by simp [urlColumn, hfields]
  have hkeeps : Keeps vcs name (baseUrl url) (PinsLine line) line :=
    ⟨⟨url, rest, hfields, rfl⟩, Iff.rfl⟩
  rw [awkEditLine_eq hkeeps hbase
    fun edit hedit => noBlank_of_hex (mappedEntries_isHash hedits edit hedit).2]
  rcases (matching awk line edits).eq_nil_or_concat' with hnil | ⟨before, edit, hsplit⟩
  · simp [hnil, columns, editLine, hfields, hurl]
  · have hhash : ∀ e ∈ before ++ [edit], IsHash e.2 := by
      intro e he
      rw [← hsplit] at he
      exact mappedEntries_isHash hedits e (List.mem_of_mem_filter he)
    have hbefore : ∀ h ∈ before.map Prod.snd, ∀ c ∈ h, isBlank c = false := by
      intro h hh
      obtain ⟨e, he, rfl⟩ := List.mem_map.mp hh
      exact noBlank_of_hex (hhash e (by simp [he])).2
    rw [hsplit, List.map_append, List.map_singleton,
      columns_editLine hkeeps hbase hbefore (hhash edit (by simp)), List.getLast?_concat]
    simp only [editUrl, hurl]

private theorem pinnedAlike_iff_url {awk : AwkComparison} {m : HashMap} {file : FeedsFile}
    {line : Line} :
    PinnedAlike awk m file line ↔
      (matching awk line (mappedEntries m file) = [] → loopUrl awk m line = urlColumn line) ∧
        ∀ edit ∈ matching awk line (mappedEntries m file),
          loopUrl awk m line = editUrl line edit.2 := by
  unfold PinnedAlike loopUrl
  cases m.found? awk line with
  | none =>
    simp only [implies_true, true_and]
    refine forall₂_congr fun edit _ => ?_
    by_cases hpins : PinsLine line
    · simp only [hpins, if_true, editUrl, AtCommit]
    · simp only [hpins, if_false, editUrl]
      rw [← baseUrl_eq_self_iff, eq_comm]
  | some h =>
    refine and_congr (imp_congr_right fun _ => eq_comm) (forall₂_congr fun edit _ => ?_)
    by_cases hpins : PinsLine line
    · simp [hpins, editUrl, eq_comm]
    · simp [hpins, editUrl]

/-- In every order the same columns are left exactly when the entry is pinned alike. -/
private theorem columns_agree_iff {awk : AwkComparison} {m : HashMap} {file : FeedsFile}
    {line : Line} (hentry : IsEntry line) :
    (∀ edits : Feeds, edits.Perm (mappedEntries m file) →
      ∀ left ∈ (rewriteLine awk m line).head?,
        columns left = columns (awkEditLine awk edits line)) ↔ PinnedAlike awk m file line := by
  obtain ⟨vcs, name, url, rest, hfields, hbase⟩ := hentry.fields_eq
  have hurl : urlColumn line = url := by simp [urlColumn, hfields]
  obtain ⟨left, hhead, hleft⟩ := columns_rewriteLine awk m hfields hbase
  have hloop : columns left = [vcs, name, loopUrl awk m line] := by
    rw [hleft, loopUrl, hurl]
  let P : Option (List Char × List Char) → Prop := fun edit =>
    loopUrl awk m line = match edit with
      | some edit => editUrl line edit.2
      | none => urlColumn line
  have horders := forall_order_iff awk line [] (mappedEntries m file) P
  simp only [List.nil_append] at horders
  refine Iff.trans (forall₂_congr fun edits hedits => ?_) (horders.trans pinnedAlike_iff_url.symm)
  rw [columns_awkEditLine hfields hbase hedits, hhead]
  have honly (X : List (List Char)) : (∀ l ∈ some left, columns l = X) ↔ columns left = X := by
    simp
  rw [honly, hloop]
  simp [P]

/-- The loop leaves a mapped entry with its commit exactly when it looks it up. -/
private theorem refersTo_loopUrl_iff {awk : AwkComparison} {m : HashMap} {line : Line} :
    (∀ h ∈ m.mapped? line, RefersTo (loopUrl awk m line) h) ↔ LooksUp awk m line := by
  unfold LooksUp loopUrl
  refine forall₂_congr fun h hmapped => ?_
  cases hfound : m.found? awk line with
  | none => simp
  | some g =>
    have hg := isHash_of_found hfound
    simp [refersTo_append_iff (baseUrl_noMark _) (noMark_of_hex hg.2)]

/-- No two entries have the same name, if one of them is mapped. -/
def OneLineEach (m : HashMap) (file : FeedsFile) : Prop :=
  (file.lines.filter (IsEntry ·)).Pairwise fun line line' =>
    (fields line)[1]? = (fields line')[1]? → m.mapped? line = none ∧ m.mapped? line' = none

instance (m : HashMap) (file : FeedsFile) : Decidable (OneLineEach m file) :=
  inferInstanceAs (Decidable (List.Pairwise _ _))

/-- `awk` compares the names of the entries and of their repositories as they are
written. -/
def TellsApart (awk : AwkComparison) (m : HashMap) (file : FeedsFile) : Prop :=
  ∀ line ∈ file.lines, IsEntry line →
    (∀ column ∈ (fields line)[1]?, ∀ edit ∈ mappedEntries m file,
      awk.equal column edit.1 = decide (column = edit.1)) ∧
    ∀ record ∈ m.records,
      awk.equal record.1 (repository line) = decide (record.1 = repository line)

/-- Names that begin with a letter and have no backslash are told apart. -/
theorem tellsApart_of_plain {awk : AwkComparison} {m : HashMap} {file : FeedsFile}
    (hplain : ∀ edit ∈ mappedEntries m file, PlainName edit.1)
    (hrepository : ∀ line ∈ file.lines, IsEntry line → PlainName (repository line)) :
    TellsApart awk m file := by
  intro line hmem hentry
  exact ⟨fun column _ edit hedit => awk.equal_plain column edit.1 (hplain edit hedit),
    fun record _ => awk.equal_plain record.1 _ (hrepository line hmem hentry)⟩

/-- A repository that is told apart from the others is looked up in the map. -/
theorem found_eq_mapped {awk : AwkComparison} {m : HashMap} {file : FeedsFile}
    (htells : TellsApart awk m file) {line : Line} (hmem : line ∈ file.lines)
    (hentry : IsEntry line) : m.found? awk line = m.mapped? line := by
  have hfilter : (m.records.filter fun record => awk.equal record.1 (repository line)) =
      m.records.filter fun record => record.1 = repository line :=
    List.filter_congr (htells line hmem hentry).2
  rw [HashMap.found?, HashMap.getHash, hfilter, List.head?_map, List.head?_filter,
    HashMap.mapped?, HashMap.hash?]

/-- With one line for each name the edits have distinct names. -/
theorem mappedEntries_nodup {m : HashMap} {file : FeedsFile} (hone : OneLineEach m file) :
    ((mappedEntries m file).map Prod.fst).Nodup := by
  unfold mappedEntries
  rw [List.Nodup, List.pairwise_map, List.pairwise_filterMap]
  refine List.Pairwise.imp_of_mem ?_ hone
  intro line line' hline hline' hnames edit hedit edit' hedit' hsame
  obtain ⟨h, hmapped, rfl⟩ := Option.map_eq_some_iff.mp hedit
  obtain ⟨h', -, rfl⟩ := Option.map_eq_some_iff.mp hedit'
  obtain ⟨_, name, _, _, hfields, -⟩ := (by simpa using (List.mem_filter.mp hline).2 :
    IsEntry line).fields_eq
  obtain ⟨_, name', _, _, hfields', -⟩ := (by simpa using (List.mem_filter.mp hline').2 :
    IsEntry line').fields_eq
  have hsecond : (fields line)[1]? = (fields line')[1]? := by
    simpa [hfields, hfields'] using hsame
  rw [(hnames hsecond).1] at hmapped
  cases hmapped

/-- With one line for each name no edit has the name of an entry that is not mapped. -/
theorem mappedEntries_ne {m : HashMap} {file : FeedsFile} (hone : OneLineEach m file)
    {line : Line} (hmem : line ∈ file.lines) (hentry : IsEntry line)
    (hmapped : m.mapped? line = none) {name : List Char} (hname : (fields line)[1]? = some name) :
    ∀ edit ∈ mappedEntries m file, edit.1 ≠ name := by
  rintro edit hedit rfl
  obtain ⟨line', hmem', hentry', hname', hmapped'⟩ := mem_mappedEntries.mp hedit
  have hne : line ≠ line' := by
    rintro rfl
    rw [hmapped] at hmapped'
    cases hmapped'
  have : Std.Symm fun line line' : Line =>
      (fields line)[1]? = (fields line')[1]? → m.mapped? line = none ∧ m.mapped? line' = none :=
    ⟨fun _ _ h hsame => (h hsame.symm).symm⟩
  have hboth := List.Pairwise.forall hone (List.mem_filter.mpr ⟨hmem, by simpa using hentry⟩)
    (List.mem_filter.mpr ⟨hmem', by simpa using hentry'⟩) hne (hname.trans hname'.symm)
  rw [hboth.2] at hmapped'
  cases hmapped'

/-- Where every name has one line and `awk` tells the names apart, both ways agree on an
entry exactly when it is not mapped or the edit pins it: a line of three columns,
without a blank behind a url that has no reference. -/
theorem pinnedAlike_iff {awk : AwkComparison} {m : HashMap} {file : FeedsFile}
    (hone : OneLineEach m file) (htells : TellsApart awk m file) {line : Line}
    (hmem : line ∈ file.lines) (hentry : IsEntry line) :
    LooksUp awk m line ∧ PinnedAlike awk m file line ↔
      ((m.mapped? line).isSome → PinsLine line) := by
  obtain ⟨vcs, name, url, rest, hfields, -⟩ := hentry.fields_eq
  have hsecond : (fields line)[1]? = some name := by simp [hfields]
  have hmatches : ∀ edit, edit ∈ matching awk line (mappedEntries m file) ↔
      edit ∈ mappedEntries m file ∧ edit.1 = name := by
    intro edit
    rw [matching, List.mem_filter, hsecond]
    refine and_congr_right fun hedit => ?_
    rw [Option.any_some, (htells line hmem hentry).1 name hsecond edit hedit, decide_eq_true_iff,
      eq_comm]
  have hfound := found_eq_mapped htells hmem hentry
  have hlooks : LooksUp awk m line := fun h hmapped => .inl (hfound.trans hmapped)
  rw [and_iff_right hlooks]
  unfold PinnedAlike
  rw [hfound]
  cases hmapped : m.mapped? line with
  | none =>
    refine iff_of_true (fun edit hedit => ?_) (by simp)
    obtain ⟨hmem', hname⟩ := (hmatches edit).mp hedit
    exact absurd hname (mappedEntries_ne hone hmem hentry hmapped hsecond edit hmem')
  | some h =>
    have hown : (name, h) ∈ mappedEntries m file :=
      mem_mappedEntries.mpr ⟨line, hmem, hentry, hsecond, hmapped⟩
    have hmatch : (name, h) ∈ matching awk line (mappedEntries m file) :=
      (hmatches _).mpr ⟨hown, rfl⟩
    constructor
    · intro halike _
      exact (halike.2 _ hmatch).1
    · intro hpins
      refine ⟨fun hnil => absurd hmatch (by simp [hnil]), fun edit hedit => ⟨hpins rfl, ?_⟩⟩
      obtain ⟨hmem', hname⟩ := (hmatches edit).mp hedit
      obtain ⟨first, second⟩ := edit
      obtain rfl : first = name := hname
      exact eq_of_nodup_keys (mappedEntries_nodup hone) hmem' hown

/-- The commits of OpenWrt and of the feed `luci`. -/
def luciMap : HashMap where
  records := [("openwrt".toList, "3f".toList), ("feeds/luci".toList, "5e".toList)]
  once := by decide
  isHash := by decide
  noColon := by decide

/-- A pseudo-feed as `feeds.conf` has them. -/
def openwrtLine : Line := "# openwrt https://openwrt.turris.cz/openwrt/openwrt.git^b6fa".toList

/-- A file with a comment, a pseudo-feed and a line for the feed `luci`. -/
def luciFile (line : Line) (hline : "src-".toList <+: (fields line).headD []) : FeedsFile where
  lines := ["#comment".toList, [], openwrtLine, line]
  kinds l hl := by
    simp only [List.mem_cons, List.not_mem_nil, or_false] at hl
    rcases hl with rfl | rfl | rfl | rfl
    · exact .inr (.inl (by decide))
    · exact .inl rfl
    · exact .inr (.inl (by decide))
    · exact .inr (.inr hline)

-- Both ways pin the pseudo-feed and the feed of a common file.
example : ∀ line ∈ [openwrtLine, luciLine],
    LooksUp textComparison luciMap line ∧
      PinnedAlike textComparison luciMap (luciFile luciLine (by decide)) line := by
  have hone : OneLineEach luciMap (luciFile luciLine (by decide)) := by decide
  have htells : TellsApart textComparison luciMap (luciFile luciLine (by decide)) :=
    tellsApart_of_plain (by decide) (by decide)
  have hentry : ∀ line ∈ [openwrtLine, luciLine], IsEntry line ∧ PinsLine line := by decide
  intro line hline
  have hmem : line ∈ (luciFile luciLine (by decide)).lines :=
    List.mem_cons_of_mem _ (List.mem_cons_of_mem _ hline)
  exact (pinnedAlike_iff hone htells hmem (hentry line hline).1).mpr fun _ => (hentry line hline).2

/-- The line of the feed with a fourth column. -/
def luciForcedLine : Line :=
  "src-git-full luci https://openwrt.turris.cz/project/luci.git;main --force".toList

end TurrisBuild.Release
