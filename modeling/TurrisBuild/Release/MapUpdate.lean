import TurrisBuild.Release.CheckoutRepo
import TurrisBuild.Release.FeedUrl

/-!
# `feeds_conf_set` as the update of a map

A file in which every feed has one line of three columns is a map from names to
urls, and `feeds_conf_set` is meant to update it at one name. It does so up to two
slips: the name is found by the comparison of `awk` in any line, and the commit is
appended to the line as it is, so that only a line that had a reference, or that was
written with single spaces, looks the same after one update and after two.
-/

namespace TurrisBuild.Release

open Fields

/-- A line that names a feed or a pseudo-feed. -/
def IsFeedLine (line : Line) : Prop :=
  ((fields line)[0]? = some ['#'] ∨ "src-".toList <+: (fields line).headD []) ∧
    2 ≤ (fields line).length

instance (line : Line) : Decidable (IsFeedLine line) := inferInstanceAs (Decidable (_ ∧ _))

/-- The first and the second column of a line. -/
def kindColumn (line : Line) : List Char := (fields line).headD []

@[inherit_doc kindColumn]
def nameColumn (line : Line) : List Char := (fields line)[1]?.getD []

/-- A configuration in which every line of a feed has its three columns, nothing
behind them and at most one mark in the url, and every name has one line. -/
structure FeedsTable where
  lines : List Line
  columns : ∀ line ∈ lines, IsFeedLine line → (fields line).length = 3
  tight : ∀ line ∈ lines, IsFeedLine line → ¬EndsBlank line
  marks : ∀ line ∈ lines, IsFeedLine line → (urlColumn line).countP isRefMark ≤ 1
  once : (lines.filter (IsFeedLine ·)).Pairwise fun line line' => nameColumn line ≠ nameColumn line'

/-- What a feed can be set to: text without marks, ampersands, blanks and backslashes,
such as every commit hash is. -/
def IsRevision (h : List Char) : Prop :=
  ∀ c ∈ h, isRefMark c = false ∧ c ≠ '&' ∧ isBlank c = false ∧ c ≠ '\n' ∧ c ≠ '\\'

/-- `awk` takes the second column of the line for the name. -/
def Matches (awk : AwkComparison) (feed : List Char) (line : Line) : Prop :=
  (fields line)[1]?.any (awk.equal · feed) = true

instance (awk : AwkComparison) (feed : List Char) (line : Line) :
    Decidable (Matches awk feed line) := inferInstanceAs (Decidable (_ = _))

/-- The name is that of a feed of the file, or of none that the edit finds in it. -/
def FeedsTable.Knows (conf : FeedsTable) (awk : AwkComparison) (feed : List Char) : Prop :=
  (∃ line ∈ conf.lines, IsFeedLine line ∧ nameColumn line = feed) ∨
    ∀ line ∈ conf.lines, ¬Matches awk feed line

/-- The laws of a map for the feeds of a file. -/
structure UpdatesMap (awk : AwkComparison) (conf : FeedsTable) : Prop where
  /-- The feed that was set is read back with its old address and the new commit. -/
  reads : ∀ line ∈ conf.lines, IsFeedLine line → ∀ h, IsRevision h →
    ∃ url ∈ getFeed (kindColumn line) (nameColumn line)
      (awkFeedsConfSet awk (nameColumn line) h conf.lines),
      feedUrl url = feedUrl (urlColumn line) ∧ feedRef url false = h ∧ feedRefIsBranch url = false
  /-- Every other line stays as it is. -/
  frame : ∀ (i : ℕ) (line : Line), conf.lines[i]? = some line → IsFeedLine line →
    ∀ h, IsRevision h → ∀ j ≠ i,
      (awkFeedsConfSet awk (nameColumn line) h conf.lines)[j]? = conf.lines[j]?
  /-- The last setting of a feed counts. -/
  overwrites : ∀ line ∈ conf.lines, IsFeedLine line → ∀ h h', IsRevision h → IsRevision h' →
    awkFeedsConfSet awk (nameColumn line) h' (awkFeedsConfSet awk (nameColumn line) h conf.lines) =
      awkFeedsConfSet awk (nameColumn line) h' conf.lines
  /-- Settings of different feeds commute. -/
  commutes : ∀ line ∈ conf.lines, ∀ line' ∈ conf.lines, IsFeedLine line → IsFeedLine line' →
    nameColumn line ≠ nameColumn line' → ∀ h h', IsRevision h → IsRevision h' →
      awkFeedsConfSet awk (nameColumn line) h
          (awkFeedsConfSet awk (nameColumn line') h' conf.lines) =
        awkFeedsConfSet awk (nameColumn line') h'
          (awkFeedsConfSet awk (nameColumn line) h conf.lines)
  /-- A release makes the same file in whatever order the shell enumerates `FEEDS`. -/
  release : ∀ owrt lists : List Char, IsRevision owrt → IsRevision lists →
    ∀ order order' : Feeds, order.Perm order' → (order.map Prod.fst).Nodup →
      (∀ entry ∈ order, IsRevision entry.2) →
      (∀ feed ∈ "openwrt".toList :: "updater-lists".toList :: order.map Prod.fst,
        conf.Knows awk feed) →
      awkReleaseConf awk owrt lists order conf.lines =
        awkReleaseConf awk owrt lists order' conf.lines

/-- The line looks the same whether `awk` rebuilds it from its columns or not. -/
def Tidy (line : Line) : Prop :=
  (urlColumn line).any isRefMark = true ∨ line = List.intercalate [' '] (fields line)

/-- Every feed is found in its own line and in no other one, and its line is written
with single spaces or has a reference. -/
structure WellSeparated (awk : AwkComparison) (conf : FeedsTable) : Prop where
  own : ∀ line ∈ conf.lines, IsFeedLine line → Matches awk (nameColumn line) line
  other : ∀ (i j : ℕ) (line line' : Line), conf.lines[i]? = some line → IsFeedLine line →
    conf.lines[j]? = some line' → j ≠ i → ¬Matches awk (nameColumn line) line'
  tidy : ∀ line ∈ conf.lines, IsFeedLine line → Tidy line

/-! ### One line -/

section OneLine

variable {line : Line} {vcs name url h : List Char}

private theorem IsRevision.noBlank (hh : IsRevision h) : ∀ c ∈ '^' :: h, isBlank c = false := by
  intro c hc
  rcases List.mem_cons.mp hc with rfl | hc
  · rfl
  · exact (hh c hc).2.2.1

private theorem IsRevision.noMark (hh : IsRevision h) : ∀ c ∈ h, isRefMark c = false :=
  fun c hc => (hh c hc).1

private theorem IsRevision.filter_ampersand (hh : IsRevision h) : h.filter (· != '&') = h := by
  rw [List.filter_eq_self]
  intro c hc
  simpa using (hh c hc).2.1

private theorem baseUrl_word {c : Char} (hfields : fields line = [vcs, name, url])
    (hc : c ∈ baseUrl url) : isBlank c = false := by
  have hword : IsWord url := isWord_of_mem_fields (s := line) (by simp [hfields])
  exact hword.2 c ((List.takeWhile_prefix _).subset hc)

/-- The three columns with a commit are words. -/
private theorem words_pinned (hfields : fields line = [vcs, name, url]) (hh : IsRevision h) :
    ∀ w ∈ [vcs, name, baseUrl url ++ '^' :: h], IsWord w := by
  have hword : ∀ w ∈ fields line, IsWord w := fun w hw => isWord_of_mem_fields hw
  rw [hfields] at hword
  intro w hw
  simp only [List.mem_cons, List.not_mem_nil, or_false] at hw hword
  rcases hw with rfl | rfl | rfl
  · exact hword _ (.inl rfl)
  · exact hword _ (.inr (.inl rfl))
  · refine ⟨by simp, fun c hc => ?_⟩
    rcases List.mem_append.mp hc with hc | hc
    · exact baseUrl_word hfields hc
    · exact hh.noBlank c hc

/-- A line that has a reference is rebuilt with single spaces. -/
theorem stripReference_of_mark (hfields : fields line = [vcs, name, url])
    (hmark : url.any isRefMark = true) (x : List Char) :
    stripReference line ++ x = List.intercalate [' '] [vcs, name, baseUrl url ++ x] := by
  have hurl : urlColumn line = url := by simp [urlColumn, hfields]
  have hne : baseUrl url ≠ url := by
    rw [ne_eq, baseUrl_eq_self_iff, hmark]
    decide
  simp [stripReference, hurl, hne, hfields, List.intercalate]

/-- A line without a reference is extended as it is. -/
theorem stripReference_of_plain (hfields : fields line = [vcs, name, url])
    (hmark : url.any isRefMark = false) : stripReference line = line ∧ baseUrl url = url := by
  have hurl : urlColumn line = url := by simp [urlColumn, hfields]
  have hbase : baseUrl url = url := (baseUrl_eq_self_iff url).mpr hmark
  exact ⟨by simp [stripReference, hurl, hbase], hbase⟩

/-- An edit leaves kind and name and puts the commit behind the address. -/
theorem fields_edited (hfields : fields line = [vcs, name, url]) (htight : ¬EndsBlank line)
    (hh : IsRevision h) :
    fields (stripReference line ++ '^' :: h) = [vcs, name, baseUrl url ++ '^' :: h] := by
  cases hmark : url.any isRefMark with
  | true =>
    rw [stripReference_of_mark hfields hmark, fields_intercalate (words_pinned hfields hh)]
  | false =>
    obtain ⟨hstrip, hbase⟩ := stripReference_of_plain hfields hmark
    obtain ⟨ws, w, hlast, happend⟩ := fields_append_of_not_endsBlank htight hh.noBlank
    have hsplit : [vcs, name] ++ [url] = ws ++ [w] := hfields.symm.trans hlast
    obtain ⟨rfl, hw⟩ := List.append_inj' hsplit rfl
    obtain rfl : url = w := by simpa using hw
    rw [hstrip, happend, hbase]
    rfl

private theorem not_endsBlank_edited (hh : IsRevision h) (s : List Char) :
    ¬EndsBlank (s ++ '^' :: h) := by
  intro hends
  obtain ⟨c, hc⟩ : ∃ c, ('^' :: h).getLast? = some c :=
    Option.isSome_iff_exists.mp (by simp [List.getLast?_cons])
  have hblank := hends c (by rw [List.getLast?_append, hc]; rfl)
  rw [hh.noBlank c (List.mem_of_getLast? hc)] at hblank
  cases hblank

/-- A second edit rebuilds the line. -/
theorem edited_twice {h' : List Char} (hfields : fields line = [vcs, name, url])
    (htight : ¬EndsBlank line) (hh : IsRevision h) :
    stripReference (stripReference line ++ '^' :: h) ++ '^' :: h' =
      List.intercalate [' '] [vcs, name, baseUrl url ++ '^' :: h'] := by
  rw [stripReference_of_mark (fields_edited hfields htight hh) (by simp [isRefMark])]
  have hnomark : ∀ c ∈ baseUrl url, (!isRefMark c) = true := by
    intro c hc
    simp [baseUrl_noMark url c hc]
  have hbase : baseUrl (baseUrl url ++ '^' :: h) = baseUrl url := by
    conv_lhs => rw [baseUrl]
    rw [List.takeWhile_append_of_pos hnomark]
    simp [isRefMark]
  rw [hbase]

/-- Two edits and one leave the same line exactly if it is tidy. -/
theorem edited_twice_eq_iff (hfields : fields line = [vcs, name, url])
    (htight : ¬EndsBlank line) (hh : IsRevision h) (h' : List Char) :
    stripReference (stripReference line ++ '^' :: h) ++ '^' :: h' =
      stripReference line ++ '^' :: h' ↔ Tidy line := by
  have hurl : urlColumn line = url := by simp [urlColumn, hfields]
  rw [edited_twice hfields htight hh, Tidy, hurl]
  cases hmark : url.any isRefMark with
  | true => simp [stripReference_of_mark hfields hmark]
  | false =>
    obtain ⟨hstrip, hbase⟩ := stripReference_of_plain hfields hmark
    have hsplit : List.intercalate [' '] [vcs, name, baseUrl url ++ '^' :: h'] =
        List.intercalate [' '] (fields line) ++ '^' :: h' := by
      simp [hbase, hfields, List.intercalate]
    rw [hstrip, hsplit, List.append_left_inj]
    simp [eq_comm]

/-- With at most one mark the address ends at the first one and at the last one. -/
theorem feedUrl_eq_baseUrl (hcount : url.countP isRefMark ≤ 1) : feedUrl url = baseUrl url := by
  cases hmark : url.any isRefMark with
  | false =>
    have hplain : ∀ c ∈ url, isRefMark c = false := by simpa using hmark
    rw [feedUrl_plain hplain, (baseUrl_eq_self_iff url).mpr hmark]
  | true =>
    obtain ⟨address, mark, r, rfl, hm, hr⟩ := exists_lastMark hmark
    have hnone : address.countP isRefMark = 0 := by
      rw [List.countP_append, List.countP_cons_of_pos hm] at hcount
      omega
    have hplain : ∀ c ∈ address, (!isRefMark c) = true := by
      simpa [List.countP_eq_zero] using hnone
    rw [feedUrl_mark hm hr, baseUrl, List.takeWhile_append_of_pos hplain]
    simp [hm]

private theorem awkSetLine_of_matches {awk : AwkComparison} {feed : List Char}
    (hmatch : Matches awk feed line) (hh : IsRevision h) :
    awkSetLine awk feed h line = stripReference line ++ '^' :: h := by
  have hset : awkSetLine awk feed h line = stripReference line ++ '^' :: h.filter (· != '&') :=
    if_pos hmatch
  rw [hset, hh.filter_ampersand]

private theorem awkSetLine_of_not_matches {awk : AwkComparison} {feed : List Char}
    (hmatch : ¬Matches awk feed line) (h : List Char) : awkSetLine awk feed h line = line :=
  if_neg hmatch

/-- Whether a name matches is decided by the second column. -/
theorem matches_congr {awk : AwkComparison} {line' : Line}
    (hname : (fields line)[1]? = (fields line')[1]?) (feed : List Char) :
    Matches awk feed line ↔ Matches awk feed line' := by
  rw [Matches, Matches, hname]

end OneLine

/-! ### The file -/

section File

variable {awk : AwkComparison} {conf : FeedsTable} {line : Line}

/-- The three columns of a feed's line. -/
theorem FeedsTable.fields_eq (hmem : line ∈ conf.lines) (hfeed : IsFeedLine line) :
    fields line = [kindColumn line, nameColumn line, urlColumn line] := by
  have hlength := conf.columns line hmem hfeed
  match hfields : fields line with
  | [vcs, name, url] => simp [kindColumn, nameColumn, urlColumn, hfields]
  | [] | [_] | [_, _] | _ :: _ :: _ :: _ :: _ => simp [hfields] at hlength

/-- A line that is read for a feed is one of a feed. -/
private theorem isFeedLine_of_namesFeed {line' : Line} (hfeed : IsFeedLine line)
    (hnames : namesFeed (kindColumn line) (nameColumn line) line' = true) :
    IsFeedLine line' ∧ nameColumn line' = nameColumn line := by
  obtain ⟨hkind, hlength⟩ := hfeed
  match hfields : fields line with
  | [] | [_] => simp [hfields] at hlength
  | vcs :: name :: rest =>
    match hfields' : fields line' with
    | [] | [_] => simp [namesFeed, hfields', kindColumn, nameColumn, hfields] at hnames
    | vcs' :: name' :: rest' =>
      simp [namesFeed, hfields', kindColumn, nameColumn, hfields] at hnames
      obtain ⟨rfl, rfl⟩ := hnames
      refine ⟨⟨?_, by simp [hfields']⟩, by simp [nameColumn, hfields, hfields']⟩
      simpa [hfields, hfields'] using hkind

/-- The lines around that of a feed do not have its name. -/
private theorem FeedsTable.split (hmem : line ∈ conf.lines) (hfeed : IsFeedLine line) :
    ∃ pre post, conf.lines = pre ++ line :: post ∧
      ∀ l ∈ pre ++ post, IsFeedLine l → nameColumn l ≠ nameColumn line := by
  obtain ⟨pre, post, hlines⟩ := List.append_of_mem hmem
  refine ⟨pre, post, hlines, fun l hl hlfeed => ?_⟩
  have honce := conf.once
  rw [hlines, List.filter_append, List.filter_cons_of_pos (by simpa using hfeed),
    List.pairwise_append, List.pairwise_cons] at honce
  obtain ⟨-, ⟨hafter, -⟩, hbefore⟩ := honce
  rcases List.mem_append.mp hl with hl | hl
  · exact hbefore l (List.mem_filter.mpr ⟨hl, by simpa using hlfeed⟩) line List.mem_cons_self
  · exact Ne.symm (hafter l (List.mem_filter.mpr ⟨hl, by simpa using hlfeed⟩))

/-- Where the feed is found in its own line only, the edit replaces this line. -/
private theorem awkFeedsConfSet_eq {feed h : List Char} {pre post : List Line}
    (hmatch : Matches awk feed line) (hother : ∀ l ∈ pre ++ post, ¬Matches awk feed l)
    (hh : IsRevision h) :
    awkFeedsConfSet awk feed h (pre ++ line :: post) =
      pre ++ (stripReference line ++ '^' :: h) :: post := by
  have hkeep {ls : List Line} (hls : ∀ l ∈ ls, ¬Matches awk feed l) :
      ls.map (awkSetLine awk feed h) = ls := by
    refine (List.map_congr_left fun l hl => ?_).trans (List.map_id ls)
    exact awkSetLine_of_not_matches (hls l hl) h
  rw [awkFeedsConfSet, List.map_append, List.map_cons, awkSetLine_of_matches hmatch hh,
    hkeep fun l hl => hother l (List.mem_append_left _ hl),
    hkeep fun l hl => hother l (List.mem_append_right _ hl)]

/-- The lines around that of a feed are not found under its name. -/
private theorem WellSeparated.not_matches (hsep : WellSeparated awk conf) {pre post : List Line}
    (hlines : conf.lines = pre ++ line :: post) (hfeed : IsFeedLine line) :
    ∀ l ∈ pre ++ post, ¬Matches awk (nameColumn line) l := by
  intro l hl
  have hline : conf.lines[pre.length]? = some line := by simp [hlines]
  rcases List.mem_append.mp hl with hl | hl
  · obtain ⟨j, hj⟩ := List.mem_iff_getElem?.mp hl
    have hlt : j < pre.length := (List.getElem?_eq_some_iff.mp hj).1
    refine hsep.other pre.length j line l hline hfeed ?_ (by omega)
    rw [hlines, List.getElem?_append_left hlt, hj]
  · obtain ⟨j, hj⟩ := List.mem_iff_getElem?.mp hl
    refine hsep.other pre.length (pre.length + (j + 1)) line l hline hfeed ?_ (by omega)
    rw [hlines, List.getElem?_append_right (by omega)]
    simpa using hj

/-- An edited line is still that of the feed. -/
private theorem matches_edited {h : List Char} (hmem : line ∈ conf.lines) (hfeed : IsFeedLine line)
    (hh : IsRevision h) (feed : List Char) :
    Matches awk feed (stripReference line ++ '^' :: h) ↔ Matches awk feed line := by
  have hfields := FeedsTable.fields_eq hmem hfeed
  refine matches_congr ?_ feed
  rw [fields_edited hfields (conf.tight line hmem hfeed) hh, hfields]
  rfl

private theorem WellSeparated.reads (hsep : WellSeparated awk conf) (hmem : line ∈ conf.lines)
    (hfeed : IsFeedLine line) {h : List Char} (hh : IsRevision h) :
    ∃ url ∈ getFeed (kindColumn line) (nameColumn line)
      (awkFeedsConfSet awk (nameColumn line) h conf.lines),
      feedUrl url = feedUrl (urlColumn line) ∧ feedRef url false = h ∧
        feedRefIsBranch url = false := by
  obtain ⟨pre, post, hlines, honce⟩ := FeedsTable.split hmem hfeed
  have hset := awkFeedsConfSet_eq (hsep.own line hmem hfeed) (hsep.not_matches hlines hfeed) hh
  have hfields := fields_edited (FeedsTable.fields_eq hmem hfeed) (conf.tight line hmem hfeed) hh
  have hbefore : pre.find? (namesFeed (kindColumn line) (nameColumn line)) = none := by
    rw [List.find?_eq_none]
    intro l hl hnames
    obtain ⟨hlfeed, hname⟩ := isFeedLine_of_namesFeed hfeed hnames
    exact honce l (List.mem_append_left _ hl) hlfeed hname
  have hnames : namesFeed (kindColumn line) (nameColumn line)
      (stripReference line ++ '^' :: h) = true := by
    simp [namesFeed, hfields]
  have hbase := baseUrl_noMark (urlColumn line)
  refine ⟨baseUrl (urlColumn line) ++ '^' :: h, ?_, ?_, ?_, ?_⟩
  · rw [getFeed, hlines, hset, List.find?_append, hbefore, Option.none_or,
      List.find?_cons_of_pos hnames]
    simp [urlColumn, hfields]
  · rw [feedUrl_mark rfl hh.noMark, feedUrl_eq_baseUrl (conf.marks line hmem hfeed)]
  · exact feedRef_mark rfl hh.noMark false
  · rw [feedRefIsBranch_mark hbase hh.noMark]
    rfl

private theorem WellSeparated.frame (hsep : WellSeparated awk conf) {i j : ℕ}
    (hi : conf.lines[i]? = some line) (hfeed : IsFeedLine line) (h : List Char) (hj : j ≠ i) :
    (awkFeedsConfSet awk (nameColumn line) h conf.lines)[j]? = conf.lines[j]? := by
  rw [awkFeedsConfSet, List.getElem?_map]
  cases hline : conf.lines[j]? with
  | none => rfl
  | some l =>
    rw [Option.map_some,
      awkSetLine_of_not_matches (hsep.other i j line l hi hfeed hline hj)]

private theorem WellSeparated.overwrites (hsep : WellSeparated awk conf) (hmem : line ∈ conf.lines)
    (hfeed : IsFeedLine line) {h h' : List Char} (hh : IsRevision h) (hh' : IsRevision h') :
    awkFeedsConfSet awk (nameColumn line) h' (awkFeedsConfSet awk (nameColumn line) h conf.lines) =
      awkFeedsConfSet awk (nameColumn line) h' conf.lines := by
  obtain ⟨pre, post, hlines, -⟩ := FeedsTable.split hmem hfeed
  have hown := hsep.own line hmem hfeed
  have hother := hsep.not_matches hlines hfeed
  have htwice := (edited_twice_eq_iff (FeedsTable.fields_eq hmem hfeed)
    (conf.tight line hmem hfeed) hh h').mpr (hsep.tidy line hmem hfeed)
  rw [hlines, awkFeedsConfSet_eq hown hother hh, awkFeedsConfSet_eq hown hother hh',
    awkFeedsConfSet_eq ((matches_edited hmem hfeed hh _).mpr hown) hother hh', htwice]

/-- Edits that do not match leave a line alone. -/
private theorem awkEditLine_of_not_matches {edits : Feeds}
    (hedits : ∀ entry ∈ edits, ¬Matches awk entry.1 line) : awkEditLine awk edits line = line := by
  induction edits with
  | nil => rfl
  | cons entry edits ih =>
    rw [awkEditLine, List.foldl_cons,
      awkSetLine_of_not_matches (hedits entry List.mem_cons_self)]
    exact ih fun e he => hedits e (List.mem_cons_of_mem _ he)

/-- On the line of a feed only the edits of its own name act. -/
private theorem awkEditLine_filter {vcs name url : List Char} {edits : Feeds}
    (hfields : fields line = [vcs, name, url]) (htight : ¬EndsBlank line)
    (hedits : ∀ entry ∈ edits,
      IsRevision entry.2 ∧ awk.equal name entry.1 = decide (entry.1 = name)) :
    awkEditLine awk edits line = awkEditLine awk (edits.filter (·.1 = name)) line := by
  induction edits generalizing line url with
  | nil => rfl
  | cons entry edits ih =>
    obtain ⟨hrevision, hequal⟩ := hedits entry List.mem_cons_self
    have hrest : ∀ e ∈ edits, IsRevision e.2 ∧ awk.equal name e.1 = decide (e.1 = name) :=
      fun e he => hedits e (List.mem_cons_of_mem _ he)
    have hmatch : Matches awk entry.1 line ↔ entry.1 = name := by
      simp [Matches, hfields, hequal]
    by_cases hname : entry.1 = name
    · rw [List.filter_cons_of_pos (by simpa using hname), awkEditLine, awkEditLine, List.foldl_cons,
        List.foldl_cons, awkSetLine_of_matches (hmatch.mpr hname) hrevision]
      exact ih (fields_edited hfields htight hrevision) (not_endsBlank_edited hrevision _) hrest
    · rw [List.filter_cons_of_neg (by simpa using hname), awkEditLine, List.foldl_cons,
        awkSetLine_of_not_matches (mt hmatch.mp hname)]
      exact ih hfields htight hrest

/-- On the lines of the file, a known name matches that of its own feed only. -/
private theorem WellSeparated.matches_iff (hsep : WellSeparated awk conf) {feed : List Char}
    (hknown : conf.Knows awk feed) (hmem : line ∈ conf.lines) :
    Matches awk feed line ↔ IsFeedLine line ∧ nameColumn line = feed := by
  constructor
  · intro hmatch
    rcases hknown with ⟨l, hl, hlfeed, rfl⟩ | hforeign
    · obtain ⟨i, hi⟩ := List.mem_iff_getElem?.mp hl
      obtain ⟨j, hj⟩ := List.mem_iff_getElem?.mp hmem
      have hij : j = i := by
        by_contra hne
        exact hsep.other i j l line hi hlfeed hj hne hmatch
      subst hij
      obtain rfl : l = line := Option.some.inj (hi.symm.trans hj)
      exact ⟨hlfeed, rfl⟩
    · exact absurd hmatch (hforeign line hmem)
  · rintro ⟨hfeed, rfl⟩
    exact hsep.own line hmem hfeed

/-- Edits of known names leave the same file if they are the same, in the same order,
for each name. -/
private theorem WellSeparated.edits_congr (hsep : WellSeparated awk conf) (edits edits' : Feeds)
    (hedits : ∀ e ∈ edits, IsRevision e.2 ∧ conf.Knows awk e.1)
    (hsame : ∀ name, edits.filter (·.1 = name) = edits'.filter (·.1 = name)) :
    conf.lines.map (awkEditLine awk edits) = conf.lines.map (awkEditLine awk edits') := by
  have hmem_iff : ∀ e, e ∈ edits ↔ e ∈ edits' := by
    intro e
    have hfilter : e ∈ edits.filter (·.1 = e.1) ↔ e ∈ edits'.filter (·.1 = e.1) := by
      rw [hsame]
    simpa using hfilter
  refine List.map_congr_left fun line hmem => ?_
  have hiff : ∀ e ∈ edits, (Matches awk e.1 line ↔ IsFeedLine line ∧ nameColumn line = e.1) :=
    fun e he => hsep.matches_iff (hedits e he).2 hmem
  by_cases hfeed : IsFeedLine line
  · have hfields := FeedsTable.fields_eq hmem hfeed
    have hown : ∀ e ∈ edits, IsRevision e.2 ∧
        awk.equal (nameColumn line) e.1 = decide (e.1 = nameColumn line) := by
      intro e he
      refine ⟨(hedits e he).1, ?_⟩
      have hmatch := hiff e he
      simp only [Matches, hfields, hfeed, true_and, List.getElem?_cons_succ,
        List.getElem?_cons_zero, Option.any_some] at hmatch
      rw [Bool.eq_iff_iff, hmatch, decide_eq_true_iff, eq_comm]
    have htight := conf.tight line hmem hfeed
    rw [awkEditLine_filter hfields htight hown, hsame,
      ← awkEditLine_filter hfields htight fun e he => hown e ((hmem_iff e).mpr he)]
  · have hnone : ∀ e ∈ edits, ¬Matches awk e.1 line := by
      intro e he hmatch
      exact hfeed ((hiff e he).mp hmatch).1
    rw [awkEditLine_of_not_matches hnone,
      awkEditLine_of_not_matches fun e he => hnone e ((hmem_iff e).mpr he)]

private theorem filter_key_perm {order order' : Feeds} (hperm : order.Perm order')
    (hnodup : (order.map Prod.fst).Nodup) (name : List Char) :
    order.filter (·.1 = name) = order'.filter (·.1 = name) := by
  have hfilter := hperm.filter (·.1 = name)
  cases hcase : order.filter (·.1 = name) with
  | nil =>
    rw [hcase] at hfilter
    exact hfilter.symm.eq_nil.symm
  | cons e es =>
    have hkey : ∀ e' ∈ e :: es, e'.1 = name := by
      intro e' he'
      rw [← hcase] at he'
      simpa using (List.mem_filter.mp he').2
    have hdistinct : ((e :: es).map Prod.fst).Nodup := by
      rw [← hcase]
      exact hnodup.sublist (List.filter_sublist.map _)
    cases es with
    | nil =>
      rw [hcase] at hfilter
      exact List.singleton_perm.mp hfilter
    | cons e' es =>
      have hne : e.1 ≠ e'.1 := by
        simp only [List.map_cons, List.nodup_cons, List.mem_cons, not_or] at hdistinct
        exact hdistinct.1.1
      rw [hkey e (by simp), hkey e' (by simp)] at hne
      exact absurd rfl hne

private theorem WellSeparated.commutes (hsep : WellSeparated awk conf) {line' : Line}
    (hmem : line ∈ conf.lines) (hmem' : line' ∈ conf.lines) (hfeed : IsFeedLine line)
    (hfeed' : IsFeedLine line') (hne : nameColumn line ≠ nameColumn line') {h h' : List Char}
    (hh : IsRevision h) (hh' : IsRevision h') :
    awkFeedsConfSet awk (nameColumn line) h
        (awkFeedsConfSet awk (nameColumn line') h' conf.lines) =
      awkFeedsConfSet awk (nameColumn line') h'
        (awkFeedsConfSet awk (nameColumn line) h conf.lines) := by
  have hedits := hsep.edits_congr [(nameColumn line', h'), (nameColumn line, h)]
    [(nameColumn line, h), (nameColumn line', h')] ?_ ?_
  · rwa [← foldl_awkFeedsConfSet, ← foldl_awkFeedsConfSet] at hedits
  · simp only [List.mem_cons, List.not_mem_nil, or_false, forall_eq_or_imp, forall_eq]
    exact ⟨⟨hh', .inl ⟨line', hmem', hfeed', rfl⟩⟩, hh, .inl ⟨line, hmem, hfeed, rfl⟩⟩
  · intro name
    refine filter_key_perm (.swap _ _ []) ?_ name
    simpa using Ne.symm hne

private theorem WellSeparated.release (hsep : WellSeparated awk conf) {owrt lists : List Char}
    (howrt : IsRevision owrt) (hlists : IsRevision lists) {order order' : Feeds}
    (hperm : order.Perm order') (hnodup : (order.map Prod.fst).Nodup)
    (hrevisions : ∀ entry ∈ order, IsRevision entry.2)
    (hknown : ∀ feed ∈ "openwrt".toList :: "updater-lists".toList :: order.map Prod.fst,
      conf.Knows awk feed) :
    awkReleaseConf awk owrt lists order conf.lines =
      awkReleaseConf awk owrt lists order' conf.lines := by
  have hedits := hsep.edits_congr
    (("openwrt".toList, owrt) :: ("updater-lists".toList, lists) :: order)
    (("openwrt".toList, owrt) :: ("updater-lists".toList, lists) :: order') ?_ ?_
  · rwa [← foldl_awkFeedsConfSet, ← foldl_awkFeedsConfSet] at hedits
  · intro e he
    rcases List.mem_cons.mp he with rfl | he
    · exact ⟨howrt, hknown _ List.mem_cons_self⟩
    · rcases List.mem_cons.mp he with rfl | he
      · exact ⟨hlists, hknown _ (List.mem_cons_of_mem _ List.mem_cons_self)⟩
      · refine ⟨hrevisions e he, hknown _ ?_⟩
        exact List.mem_cons_of_mem _ (List.mem_cons_of_mem _ (List.mem_map_of_mem he))
  · intro name
    rw [List.filter_cons, List.filter_cons, List.filter_cons, List.filter_cons,
      filter_key_perm hperm hnodup name]

/-- An edit that matches makes the line longer, if the commit is long enough. -/
private theorem awkSetLine_ne {feed : List Char} (hmatch : Matches awk feed line) :
    awkSetLine awk feed (List.replicate line.length '0') line ≠ line := by
  have hrevision : IsRevision (List.replicate line.length '0') := by
    intro c hc
    rw [List.eq_of_mem_replicate hc]
    decide
  intro heq
  have hlength := congrArg List.length heq
  rw [awkSetLine_of_matches hmatch hrevision] at hlength
  simp only [List.length_append, List.length_cons, List.length_replicate] at hlength
  omega

private theorem isRevision_digit {c : Char} (hc : c ∈ ['0', '1']) : IsRevision [c] := by
  intro d hd
  rw [List.mem_singleton.mp hd]
  simp only [List.mem_cons, List.not_mem_nil, or_false] at hc
  rcases hc with rfl | rfl <;> decide

/-- The laws make every feed be found in its own line and nowhere else. -/
private theorem UpdatesMap.wellSeparated (hlaws : UpdatesMap awk conf) :
    WellSeparated awk conf := by
  have hother : ∀ (i j : ℕ) (line line' : Line), conf.lines[i]? = some line → IsFeedLine line →
      conf.lines[j]? = some line' → j ≠ i → ¬Matches awk (nameColumn line) line' := by
    intro i j line line' hi hfeed hj hne hmatch
    have hframe := hlaws.frame i line hi hfeed (List.replicate line'.length '0') ?_ j hne
    · rw [awkFeedsConfSet, List.getElem?_map, hj] at hframe
      exact awkSetLine_ne hmatch (Option.some.inj hframe)
    · intro c hc
      rw [List.eq_of_mem_replicate hc]
      decide
  have hown : ∀ line ∈ conf.lines, IsFeedLine line → Matches awk (nameColumn line) line := by
    intro line hmem hfeed
    by_contra hmatch
    obtain ⟨i, hi⟩ := List.mem_iff_getElem?.mp hmem
    -- Without a match the file would be read back the same for every commit.
    have hkeep (h : List Char) :
        awkFeedsConfSet awk (nameColumn line) h conf.lines = conf.lines := by
      refine (List.map_congr_left fun l hl => ?_).trans (List.map_id _)
      refine awkSetLine_of_not_matches ?_ h
      obtain ⟨j, hj⟩ := List.mem_iff_getElem?.mp hl
      by_cases hji : j = i
      · subst hji
        obtain rfl : line = l := Option.some.inj (hi.symm.trans hj)
        exact hmatch
      · exact hother i j line l hi hfeed hj hji
    obtain ⟨url, hurl, -, href, -⟩ := hlaws.reads line hmem hfeed ['0'] (isRevision_digit (by simp))
    obtain ⟨url', hurl', -, href', -⟩ :=
      hlaws.reads line hmem hfeed ['1'] (isRevision_digit (by simp))
    rw [hkeep] at hurl hurl'
    obtain rfl : url = url' := Option.some.inj (hurl.symm.trans hurl')
    exact absurd (href.symm.trans href') (by decide)
  refine ⟨hown, hother, fun line hmem hfeed => ?_⟩
  have hzero : IsRevision ['0'] := isRevision_digit (by simp)
  have htwice := hlaws.overwrites line hmem hfeed ['0'] ['0'] hzero hzero
  rw [awkFeedsConfSet, awkFeedsConfSet, List.map_map, List.map_inj_left] at htwice
  have hline := htwice line hmem
  have hmatch := hown line hmem hfeed
  rw [Function.comp_apply, awkSetLine_of_matches hmatch hzero,
    awkSetLine_of_matches ((matches_edited hmem hfeed hzero _).mpr hmatch) hzero] at hline
  exact (edited_twice_eq_iff (FeedsTable.fields_eq hmem hfeed) (conf.tight line hmem hfeed)
    hzero ['0']).mp hline

/-- Plain names are found in their own lines only, if no other line has one of them as
its second column. -/
theorem wellSeparated_of_plain
    (hplain : ∀ line ∈ conf.lines, IsFeedLine line → PlainName (nameColumn line))
    (halone : ∀ (i j : ℕ) (line line' : Line), conf.lines[i]? = some line → IsFeedLine line →
      conf.lines[j]? = some line' → j ≠ i → (fields line')[1]? ≠ some (nameColumn line))
    (htidy : ∀ line ∈ conf.lines, IsFeedLine line → Tidy line) : WellSeparated awk conf where
  own line hmem hfeed := by
    simp [Matches, FeedsTable.fields_eq hmem hfeed,
      awk.equal_plain _ _ (hplain line hmem hfeed)]
  other i j line line' hi hfeed hj hne hmatch := by
    obtain ⟨column, hcolumn, hequal⟩ := Option.any_eq_true _ _ |>.mp hmatch
    rw [awk.equal_plain _ _ (hplain line (List.mem_of_getElem? hi) hfeed)] at hequal
    obtain rfl := of_decide_eq_true hequal
    exact halone i j line line' hi hfeed hj hne hcolumn
  tidy := htidy

end File

/-- The line of a feed without a reference, written with two spaces. -/
def spacedLine : Line := "src-git-full  luci https://openwrt.turris.cz/project/luci.git".toList

/-- A file with this line. -/
def spacedTable : FeedsTable where
  lines := [spacedLine]
  columns := by decide
  tight := by decide
  marks := by decide
  once := by decide

end TurrisBuild.Release
