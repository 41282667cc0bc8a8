import Mathlib.Data.Bool.AllAny
import Mathlib.Data.List.Nodup
import TurrisBuild.Release.GitHash

/-!
# What `verify` accepts

The primary hash of each comparison is chosen inside the loop, as the first
hash that is not empty. Boards in front of that one are therefore compared with
nothing, and a hash that the primary board lacks goes unnoticed. On the other
side, an empty feed name ends the script, and a board without any feed makes the
loop read one. Last, the pattern for the hash of a feed excludes an `s` and a backslash
at its beginning. These files are the only ones on which `verify` does not decide
consistency, which is stated about the lines of the files.
-/

namespace TurrisBuild.Release

open Fields

/-! ### The lines of a build -/

/-- A nonempty name without white space and colons. -/
def IsName (name : List Char) : Prop :=
  name ≠ [] ∧ ∀ c ∈ name, c.isWhitespace = false ∧ c ≠ ':'

/-- The line of one repository. -/
def hashLine (repository : List Char × List Char) : Line :=
  " * ".toList ++ repository.1 ++ ": ".toList ++ repository.2

/-- The file gives a repository this hash: its first line with the name and a colon in
the second column has the hash in the third one. -/
def HasHash (file : List Line) (name hash : List Char) : Prop :=
  ∃ before line after, file = before ++ line :: after ∧
    (∀ l ∈ before, (fields l)[1]? ≠ some (name ++ [':'])) ∧
    (fields line)[1]? = some (name ++ [':']) ∧ (fields line)[2]? = some hash

/-- Some line of the file gives a feed this hash. -/
def ListsFeed (file : List Line) (feed hash : List Char) : Prop :=
  ∃ line ∈ file, (fields line)[1]? = some ("feeds/".toList ++ feed ++ [':']) ∧
    (fields line)[2]? = some hash

/-- The consistency that `verify` is meant to decide. -/
structure Consistent (files : GitHashFiles) : Prop where
  /-- One `turris-build` hash is in the packages and the lists of every board. -/
  tb : ∃ h, ∀ b, HasHash (files.packages b) "turris-build".toList h ∧
    HasHash (files.lists b) "turris-build".toList h
  /-- One `openwrt` hash is in the packages of every board. -/
  openwrt : ∃ h, ∀ b, HasHash (files.packages b) "openwrt".toList h
  /-- One `updater-lists` hash is in the lists of every board. -/
  updaterLists : ∃ h, ∀ b, HasHash (files.lists b) "updater-lists".toList h
  /-- Boards that list a feed list it with the same hash. -/
  feeds : ∀ b b' f h h', ListsFeed (files.packages b) f h → ListsFeed (files.packages b') f h' →
    h = h'

/-- A line in which a name of a feed is in the second column is written as builds write
it, with single spaces and one word for the hash, or it is cut off in front of its hash
and `sed` leaves it alone. -/
def FeedsWritten (files : GitHashFiles) : Prop :=
  ∀ b, ∀ line ∈ files.packages b, "feeds/".toList <+: (fields line)[1]?.getD [] →
    (∃ f h, IsName f ∧ IsWord h ∧ line = hashLine ("feeds/".toList ++ f, h)) ∨
      (fields line)[2]? = none ∧ feedLine line = none

/-- The hash does not begin with one of the two characters that `[^\s]` excludes. -/
def Readable (hash : List Char) : Prop := hash.head? ≠ some '\\' ∧ hash.head? ≠ some 's'

instance (hash : List Char) : Decidable (Readable hash) := inferInstanceAs (Decidable (_ ∧ _))

/-- The boards behind one that has a hash have the same one. -/
def SameFromFirst (file : Board → List Line) (name : List Char) : Prop :=
  boards.Pairwise fun b b' => ∀ h, HasHash (file b) name h → HasHash (file b') name h

/-- What the loops compare is alike: the three hashes from the first board on that has
one, packages and lists of a board, and the feeds with readable hashes. -/
structure ComparedAlike (files : GitHashFiles) : Prop where
  tb : SameFromFirst files.packages "turris-build".toList
  tbLists : ∀ b h, HasHash (files.packages b) "turris-build".toList h ↔
    HasHash (files.lists b) "turris-build".toList h
  openwrt : SameFromFirst files.packages "openwrt".toList
  updaterLists : SameFromFirst files.lists "updater-lists".toList
  feeds : ∀ b b' f h h', Readable h → Readable h' → ListsFeed (files.packages b) f h →
    ListsFeed (files.packages b') f h' → h = h'

/-- The primary board has the three hashes. -/
structure PrimaryComplete (files : GitHashFiles) : Prop where
  tb : ∃ h, HasHash (files.packages .omniaNg) "turris-build".toList h
  openwrt : ∃ h, HasHash (files.packages .omniaNg) "openwrt".toList h
  updaterLists : ∃ h, HasHash (files.lists .omniaNg) "updater-lists".toList h

/-- No feed is listed with two hashes of which one is not readable. -/
def NothingHidden (files : GitHashFiles) : Prop :=
  ∀ b b' f h h', ¬Readable h → ListsFeed (files.packages b) f h →
    ListsFeed (files.packages b') f h' → h = h'

/-- Every board lists a feed with a readable hash. -/
def EveryBoardHasFeed (files : GitHashFiles) : Prop :=
  ∀ b, ∃ f h, Readable h ∧ ListsFeed (files.packages b) f h

/-! ### What is read -/

/-- All entries from the first one that is not empty on are one hash. -/
def AgreesFromFirst (column : List (List Char)) : Prop :=
  ∃ h, ∀ x ∈ column.dropWhile List.isEmpty, x = h

/-- Two boards from which the loop reads a feed give it the same hash. -/
def RecordsAgree (files : GitHashFiles) : Prop :=
  ∀ b b' f h h', (f, h) ∈ feedRecords (files.packages b) →
    (f, h') ∈ feedRecords (files.packages b') → h = h'

/-- The loop reads a name from every line: each board records at least one feed
and no recorded name is blank. -/
def EveryLineNamesFeed (files : GitHashFiles) : Prop :=
  ∀ b, ∀ r ∈ hereString (files.packages b), r.1 ≠ []

/-! ### The loops over the boards -/

private theorem hashLoop_reports_nil_iff {mismatch : Board → List Char → List Char → Mismatch}
    {hash : Board → List Char} (bs : List Board) (s : List Char × List Mismatch) :
    (bs.foldl (hashStep mismatch hash) s).2 = [] ↔
      s.2 = [] ∧ if s.1 = [] then AgreesFromFirst (bs.map hash) else ∀ b ∈ bs, hash b = s.1 := by
  induction bs generalizing s with
  | nil => simp [AgreesFromFirst]
  | cons b bs ih =>
    rw [List.foldl_cons, ih]
    obtain ⟨p, reported⟩ := s
    by_cases hp : p = []
    · subst hp
      by_cases hb : hash b = []
      · simp [hashStep, pickPrimary, hb, AgreesFromFirst]
      · have hdrop : ((b :: bs).map hash).dropWhile List.isEmpty = hash b :: bs.map hash := by
          simp [hb]
        simp only [hashStep, pickPrimary, List.isEmpty_nil, if_true, hb, if_false, AgreesFromFirst,
          hdrop, List.mem_cons, List.mem_map]
        refine and_congr_right fun _ => ⟨fun h => ⟨hash b, ?_⟩, ?_⟩
        · rintro x (rfl | ⟨c, hc, rfl⟩)
          · rfl
          · exact h c hc
        · rintro ⟨h, hall⟩ c hc
          rw [hall _ (.inr ⟨c, hc, rfl⟩), hall _ (.inl rfl)]
    · have hpick : pickPrimary p (hash b) = p := by simp [pickPrimary, hp]
      by_cases hb : p = hash b
      · rw [← hb] at hpick
        simp [hashStep, hpick, hp, ← hb]
      · simp [hashStep, hpick, hp, hb, Ne.symm hb]

private theorem tbLoop_reports_nil_iff (files : GitHashFiles) (bs : List Board)
    (s : List Char × List Mismatch) :
    (bs.foldl (tbStep files) s).2 = [] ↔
      (bs.foldl (hashStep .tbPackages (tbPackages files)) s).2 = [] ∧
        ∀ b ∈ bs, tbPackages files b = tbLists files b := by
  induction bs generalizing s with
  | nil => simp
  | cons b bs ih =>
    rw [List.foldl_cons, List.foldl_cons, ih, hashLoop_reports_nil_iff, hashLoop_reports_nil_iff]
    by_cases hb : tbPackages files b = tbLists files b
    · simp [tbStep, hb, and_assoc]
    · simp [tbStep, hb]

/-- `owrt_hash` reports nothing exactly when the boards agree from the first
board on that has a hash. -/
theorem owrtHash_reports_nil_iff (files : GitHashFiles) :
    (owrtHash files).2 = [] ↔ AgreesFromFirst (boards.map (owrtPackages files)) := by
  simpa [owrtHash] using hashLoop_reports_nil_iff boards ([], [])

/-- `lists_hash` reports nothing exactly when the boards agree from the first
board on that has a hash. -/
theorem listsHash_reports_nil_iff (files : GitHashFiles) :
    (listsHash files).2 = [] ↔ AgreesFromFirst (boards.map (updaterLists files)) := by
  simpa [listsHash] using hashLoop_reports_nil_iff boards ([], [])

/-- `tb_hash` reports nothing exactly when every board built its packages and
its lists alike and the boards agree from the first one on that has a hash. -/
theorem tbHash_reports_nil_iff (files : GitHashFiles) :
    (tbHash files).2 = [] ↔
      AgreesFromFirst (boards.map (tbPackages files)) ∧
        ∀ b, tbPackages files b = tbLists files b := by
  have h := tbLoop_reports_nil_iff files boards ([], [])
  rw [hashLoop_reports_nil_iff] at h
  simpa [tbHash] using h

/-! ### The loop over the feeds -/

/-- What the array and the reports are after some records were read: keys are
distinct, every entry comes from a record or was there before, every record has
its key, and nothing is reported exactly when all records are entries. -/
private structure Collected (before : Feeds) (records : List (List Char × List Char))
    (reports : List Mismatch) (after : Feeds × List Mismatch) : Prop where
  nodup : (after.1.map Prod.fst).Nodup
  kept : ∀ p ∈ before, p ∈ after.1
  origin : ∀ p ∈ after.1, p ∈ before ∨ p ∈ records
  key : ∀ r ∈ records, r.1 ∈ after.1.map Prod.fst
  reported : after.2 = [] ↔ reports = [] ∧ ∀ r ∈ records, r ∈ after.1

private theorem Collected.nil {feeds : Feeds} {reports : List Mismatch}
    (hnodup : (feeds.map Prod.fst).Nodup) : Collected feeds [] reports (feeds, reports) where
  nodup := hnodup
  kept _ hp := hp
  origin _ hp := .inl hp
  key := by simp
  reported := by simp

private theorem Collected.trans {before : Feeds} {first second : List (List Char × List Char)}
    {reports : List Mismatch} {mid after : Feeds × List Mismatch}
    (h₁ : Collected before first reports mid) (h₂ : Collected mid.1 second mid.2 after) :
    Collected before (first ++ second) reports after where
  nodup := h₂.nodup
  kept p hp := h₂.kept p (h₁.kept p hp)
  origin p hp := by
    rcases h₂.origin p hp with hp | hp
    · rcases h₁.origin p hp with hp | hp
      · exact .inl hp
      · exact .inr (List.mem_append_left _ hp)
    · exact .inr (List.mem_append_right _ hp)
  key r hr := by
    rcases List.mem_append.mp hr with hr | hr
    · obtain ⟨p, hp, hpr⟩ := List.mem_map.mp (h₁.key r hr)
      exact hpr ▸ List.mem_map_of_mem (h₂.kept p hp)
    · exact h₂.key r hr
  reported := by
    rw [h₂.reported, h₁.reported]
    simp only [List.mem_append, or_imp, forall_and, and_assoc]
    refine and_congr_right fun _ => and_congr_left fun _ => ?_
    refine forall₂_congr fun r hr => ⟨h₂.kept r, fun hafter => ?_⟩
    -- A key of the earlier array keeps its value, so the later entry is the earlier one.
    obtain ⟨p, hp, hpr⟩ := List.mem_map.mp (h₁.key r hr)
    have hpeq : p = r := List.inj_on_of_nodup_map h₂.nodup (h₂.kept p hp) hafter hpr
    exact hpeq ▸ hp

/-- A new subscript is added to the array. -/
theorem assign_of_not_mem {feeds : Feeds} {feed hsh : List Char}
    (hfeed : feed ∉ feeds.map Prod.fst) : Feeds.assign feeds feed hsh = feeds ++ [(feed, hsh)] := by
  unfold Feeds.assign
  rw [List.filter_eq_self.mpr]
  intro p hp
  have hne : p.1 ≠ feed := fun h => hfeed (h ▸ List.mem_map_of_mem hp)
  simp [hne]

/-- With distinct names a feed has one commit. -/
theorem eq_of_nodup_keys {feeds : Feeds} (hnodup : (feeds.map Prod.fst).Nodup)
    {f h h' : List Char} (hh : (f, h) ∈ feeds) (hh' : (f, h') ∈ feeds) : h = h' := by
  exact congrArg Prod.snd (List.inj_on_of_nodup_map hnodup hh hh' rfl)

private theorem feedsStep_collected (board : Board) {feeds : Feeds} (reports : List Mismatch)
    (hnodup : (feeds.map Prod.fst).Nodup) {record : List Char × List Char}
    (hname : record.1 ≠ []) :
    ∃ after, feedsStep board (feeds, reports) record = some after ∧
      Collected feeds [record] reports after := by
  obtain ⟨feed, hsh⟩ := record
  have hne : feed.isEmpty = false := by simpa using hname
  cases hlookup : feeds.lookup feed with
  | some known =>
    have hknown : (feed, known) ∈ feeds := by
      obtain ⟨l₁, l₂, rfl, -⟩ := List.lookup_eq_some_iff.mp hlookup
      simp
    refine ⟨(feeds, if hsh = known then reports
      else reports ++ [.feed feed board known hsh]), ?_, ?_⟩
    · simp [feedsStep, hne, hlookup]
    · have hkey : feed ∈ feeds.map Prod.fst := List.mem_map_of_mem hknown
      refine ⟨hnodup, fun p hp => hp, fun p hp => .inl hp, by simpa using hkey, ?_⟩
      by_cases hsame : hsh = known
      · subst hsame
        simpa using fun _ => hknown
      · have hnot : (feed, hsh) ∉ feeds := fun h => hsame (eq_of_nodup_keys hnodup h hknown)
        simp [hsame, hnot]
  | none =>
    have hfresh : feed ∉ feeds.map Prod.fst := by
      intro hmem
      obtain ⟨p, hp, rfl⟩ := List.mem_map.mp hmem
      exact absurd (List.lookup_eq_none_iff.mp hlookup p hp) (by simp)
    refine ⟨(feeds ++ [(feed, hsh)], reports), ?_, ?_⟩
    · simp [feedsStep, hne, hlookup, assign_of_not_mem hfresh]
    · refine ⟨?_, fun p hp => by simp [hp], fun p hp => by simpa using hp, by simp, by simp⟩
      rw [List.map_append, List.map_singleton]
      exact List.nodup_append.mpr ⟨hnodup, List.nodup_singleton _, by
        rintro x hx y hy rfl
        rw [List.mem_singleton.mp hy] at hx
        exact hfresh hx⟩

private theorem foldlM_feedsStep_collected (board : Board)
    {records : List (List Char × List Char)} (hnames : ∀ r ∈ records, r.1 ≠ [])
    {feeds : Feeds} (reports : List Mismatch) (hnodup : (feeds.map Prod.fst).Nodup) :
    ∃ after, records.foldlM (feedsStep board) (feeds, reports) = some after ∧
      Collected feeds records reports after := by
  induction records generalizing feeds reports with
  | nil => exact ⟨(feeds, reports), rfl, .nil hnodup⟩
  | cons record records ih =>
    obtain ⟨mid, hmid, hcol⟩ :=
      feedsStep_collected board reports hnodup (hnames record List.mem_cons_self)
    obtain ⟨after, hafter, hrest⟩ :=
      ih (fun r hr => hnames r (List.mem_cons_of_mem _ hr)) mid.2 hcol.nodup
    exact ⟨after, by simpa [List.foldlM_cons, hmid] using hafter, hcol.trans hrest⟩

/-- When the loop reads a name from every line, it reads the records. -/
theorem EveryLineNamesFeed.hereString_eq {files : GitHashFiles} (hnames : EveryLineNamesFeed files)
    (b : Board) : hereString (files.packages b) = feedRecords (files.packages b) := by
  have hb := hnames b
  unfold hereString at hb ⊢
  split at hb
  · exact absurd rfl (hb (readPair []) List.mem_cons_self)
  · next hsome => rw [if_neg hsome]

private theorem foldlM_boards_collected {files : GitHashFiles} (hnames : EveryLineNamesFeed files)
    (bs : List Board) (feeds : Feeds) (reports : List Mismatch)
    (hnodup : (feeds.map Prod.fst).Nodup) :
    ∃ after, bs.foldlM (fun s board =>
        (hereString (files.packages board)).foldlM (feedsStep board) s) (feeds, reports) =
          some after ∧
      Collected feeds (bs.flatMap fun b => feedRecords (files.packages b)) reports after := by
  induction bs generalizing feeds reports with
  | nil => exact ⟨(feeds, reports), rfl, .nil hnodup⟩
  | cons b bs ih =>
    have hhere := hnames.hereString_eq b
    obtain ⟨mid, hmid, hcol⟩ :=
      foldlM_feedsStep_collected b (hhere ▸ hnames b) reports hnodup
    obtain ⟨after, hafter, hrest⟩ := ih mid.1 mid.2 hcol.nodup
    exact ⟨after, by simpa [List.foldlM_cons, hhere, hmid] using hafter, hcol.trans hrest⟩

/-- When every line names a feed, `feeds` collects exactly the recorded feeds,
each under one hash, and reports nothing exactly when the boards agree. -/
theorem feeds_collects {files : GitHashFiles} (hnames : EveryLineNamesFeed files) :
    ∃ collected reports, feeds files = some (collected, reports) ∧
      (collected.map Prod.fst).Nodup ∧
      (∀ p ∈ collected, ∃ b, p ∈ feedRecords (files.packages b)) ∧
      (reports = [] ↔ ∀ b, ∀ r ∈ feedRecords (files.packages b), r ∈ collected) ∧
      (reports = [] ↔ RecordsAgree files) := by
  obtain ⟨⟨collected, reports⟩, hrun, hcol⟩ :=
    foldlM_boards_collected hnames boards [] [] List.nodup_nil
  have horigin : ∀ p ∈ collected, ∃ b, p ∈ feedRecords (files.packages b) := by
    intro p hp
    rcases hcol.origin p hp with hp | hp
    · simp at hp
    · obtain ⟨b, -, hb⟩ := List.mem_flatMap.mp hp
      exact ⟨b, hb⟩
  have hreported : reports = [] ↔ ∀ b, ∀ r ∈ feedRecords (files.packages b), r ∈ collected := by
    rw [hcol.reported]
    simp only [List.mem_flatMap, mem_boards, true_and, forall_exists_index]
    exact ⟨fun h b r hr => h r b hr, fun h r b hr => h b r hr⟩
  refine ⟨collected, reports, hrun, hcol.nodup, horigin, hreported, ?_⟩
  rw [hreported]
  constructor
  · intro hall b b' f h h' hh hh'
    exact eq_of_nodup_keys hcol.nodup (hall b _ hh) (hall b' _ hh')
  · rintro hagree b ⟨f, h⟩ hr
    have hkey := hcol.key (f, h) (List.mem_flatMap.mpr ⟨b, mem_boards b, hr⟩)
    obtain ⟨⟨f', h'⟩, hp, rfl⟩ := List.mem_map.mp hkey
    obtain ⟨b', hb'⟩ := horigin _ hp
    rwa [hagree b b' f' h h' hr hb']

private theorem foldlM_feedsStep_eq_none (board : Board) {records : List (List Char × List Char)}
    (hblank : ∃ r ∈ records, r.1 = []) (s : Feeds × List Mismatch) :
    records.foldlM (feedsStep board) s = none := by
  induction records generalizing s with
  | nil => simp at hblank
  | cons record records ih =>
    rw [List.foldlM_cons]
    by_cases hrecord : record.1 = []
    · simp [feedsStep, hrecord]
    · have hrest : ∃ r ∈ records, r.1 = [] := by simpa [hrecord] using hblank
      cases feedsStep board s record with
      | none => rfl
      | some next => exact ih hrest next

/-- A line without a name ends the script. -/
theorem feeds_eq_none {files : GitHashFiles} (hblank : ¬EveryLineNamesFeed files) :
    feeds files = none := by
  obtain ⟨b, hb⟩ : ∃ b, ∃ r ∈ hereString (files.packages b), r.1 = [] := by
    simpa [EveryLineNamesFeed] using hblank
  have hrun : ∀ (bs : List Board) (s : Feeds × List Mismatch), b ∈ bs → bs.foldlM (fun s board =>
      (hereString (files.packages board)).foldlM (feedsStep board) s) s = none := by
    intro bs
    induction bs with
    | nil => simp
    | cons c bs ih =>
      intro s hmem
      rw [List.foldlM_cons]
      rcases List.mem_cons.mp hmem with rfl | hmem
      · rw [foldlM_feedsStep_eq_none b hb]
        rfl
      · cases (hereString (files.packages c)).foldlM (feedsStep c) s with
        | none => rfl
        | some next => exact ih next hmem
  exact hrun boards _ (mem_boards b)

/-! ### The verdict -/

/-- `verify` succeeds exactly when the loops find nothing to report and every
line names a feed. -/
theorem verify_eq_zero_iff (files : GitHashFiles) :
    verify files = 0 ↔
      AgreesFromFirst (boards.map (tbPackages files)) ∧
      (∀ b, tbPackages files b = tbLists files b) ∧
      AgreesFromFirst (boards.map (owrtPackages files)) ∧
      AgreesFromFirst (boards.map (updaterLists files)) ∧
      RecordsAgree files ∧ EveryLineNamesFeed files := by
  by_cases hnames : EveryLineNamesFeed files
  · obtain ⟨collected, reports, hrun, -, -, -, hagree⟩ := feeds_collects hnames
    have hverify : verify files = 0 ↔
        (tbHash files).2 = [] ∧ (owrtHash files).2 = [] ∧ (listsHash files).2 = [] ∧
          reports = [] := by
      simp [verify, hrun]
    rw [hverify, tbHash_reports_nil_iff, owrtHash_reports_nil_iff, listsHash_reports_nil_iff,
      hagree]
    simp [hnames, and_assoc]
  · simp [verify, feeds_eq_none hnames, hnames]

/-! ### The lines that are read -/

/-- A name is one word. -/
theorem IsName.isWord {name : List Char} (hname : IsName name) : IsWord name := by
  refine ⟨hname.1, fun c hc => ?_⟩
  have hspace : c ≠ ' ' := by
    rintro rfl
    exact absurd (hname.2 _ hc).1 (by decide)
  have htab : c ≠ '\t' := by
    rintro rfl
    exact absurd (hname.2 _ hc).1 (by decide)
  simp [isBlank, hspace, htab]

/-- The directory of a feed is a name. -/
theorem IsName.feed {name : List Char} (hname : IsName name) :
    IsName ("feeds/".toList ++ name) := by
  have hdir : ∀ c ∈ "feeds/".toList, c.isWhitespace = false ∧ c ≠ ':' :=
    List.all_iff_forall_prop.mp (by decide)
  refine ⟨by simp, fun c hc => ?_⟩
  rcases List.mem_append.mp hc with hc | hc
  · exact hdir c hc
  · exact hname.2 c hc

/-- The columns of the line of a repository. -/
theorem fields_hashLine {repository : List Char × List Char} (hname : IsName repository.1)
    (hhash : IsWord repository.2) :
    fields (hashLine repository) = [['*'], repository.1 ++ [':'], repository.2] := by
  have hline : hashLine repository =
      [] ++ ' ' :: List.intercalate [' '] [['*'], repository.1 ++ [':'], repository.2] := by
    simp [hashLine, List.intercalate]
  have hlabel : IsWord (repository.1 ++ [':']) := by
    refine ⟨by simp, fun c hc => ?_⟩
    rcases List.mem_append.mp hc with hc | hc
    · exact hname.isWord.2 c hc
    · rw [List.mem_singleton.mp hc]
      decide
  rw [hline, fields_append_cons _ _ rfl, fields_nil, List.nil_append, fields_intercalate]
  intro w hw
  simp only [List.mem_cons, List.not_mem_nil, or_false] at hw
  rcases hw with rfl | rfl | rfl
  · exact ⟨by simp, List.all_iff_forall_prop.mp (by decide)⟩
  · exact hlabel
  · exact hhash

/-- The line of a feed, as `sed` prints it or leaves it out. -/
theorem feedLine_hashLine {name hash : List Char} (hname : IsName name) (hhash : IsWord hash) :
    feedLine (hashLine ("feeds/".toList ++ name, hash)) =
      if Readable hash then some (name ++ ' ' :: hash) else none := by
  obtain ⟨c, tail, rfl⟩ := List.exists_cons_of_ne_nil hhash.1
  have hline : hashLine ("feeds/".toList ++ name, c :: tail) =
      " * feeds/".toList ++ (name ++ ':' :: ' ' :: c :: tail) := by
    simp [hashLine]
  have hprefix : " * feeds/".toList.isPrefixOf
      (" * feeds/".toList ++ (name ++ ':' :: ' ' :: c :: tail)) = true :=
    List.isPrefixOf_iff_prefix.mpr (List.prefix_append _ _)
  have hnotColon : ∀ d ∈ name, (d != ':') = true := fun d hd => by simpa using (hname.2 d hd).2
  have hreadable : Readable (c :: tail) ↔ ¬(c = '\\' ∨ c = 's') := by simp [Readable]
  have hfirst : feedLine (" * feeds/".toList ++ (name ++ ':' :: ' ' :: c :: tail)) =
      if c = '\\' ∨ c = 's' then none else some (name ++ ' ' :: c :: tail) := by
    rw [feedLine, if_pos hprefix, List.drop_left]
    simp only [List.takeWhile_append_of_pos hnotColon, List.dropWhile_append_of_pos hnotColon]
    simp [hname.1]
  rw [hline, hfirst]
  by_cases hbad : c = '\\' ∨ c = 's'
  · rw [if_pos hbad, if_neg (mt hreadable.mp (not_not_intro hbad))]
  · rw [if_neg hbad, if_pos (hreadable.mpr hbad)]

/-- Two words are read back. -/
theorem readPair_words {name hash : List Char} (hname : IsWord name) (hhash : IsWord hash) :
    readPair (name ++ ' ' :: hash) = (name, hash) := by
  have hblank : isBlank ' ' = true := by decide
  have hnonblank : ∀ c ∈ name, (!isBlank c) = true := fun c hc => by simp [hname.2 c hc]
  have hstart : (name ++ ' ' :: hash).dropWhile isBlank = name ++ ' ' :: hash := by
    obtain ⟨c, tail, rfl⟩ := List.exists_cons_of_ne_nil hname.1
    simp [hname.2 c List.mem_cons_self]
  have hrest : hash.dropWhile isBlank = hash := by
    obtain ⟨c, tail, rfl⟩ := List.exists_cons_of_ne_nil hhash.1
    simp [hhash.2 c List.mem_cons_self]
  have hend : hash.rdropWhile isBlank = hash :=
    List.rdropWhile_eq_self_iff.mpr fun hne => by simp [hhash.2 _ (List.getLast_mem hne)]
  simp only [readPair, hstart, List.takeWhile_append_of_pos hnonblank,
    List.dropWhile_append_of_pos hnonblank]
  simp [hblank, hrest, hend]

/-- `git_hash` prints the hash that the file has, and nothing else. -/
theorem hasHash_iff {file : List Line} {name hash : List Char} :
    HasHash file name hash ↔ hash ≠ [] ∧ gitHash file name = hash := by
  have hword {line : Line} {h : List Char} (hthird : (fields line)[2]? = some h) : h ≠ [] :=
    (isWord_of_mem_fields (List.mem_of_getElem? hthird)).1
  constructor
  · rintro ⟨before, line, after, rfl, hbefore, hname, hhash⟩
    refine ⟨hword hhash, ?_⟩
    have hfind : (before ++ line :: after).find?
        (fun l => (fields l)[1]? = some (name ++ [':'])) = some line := by
      rw [List.find?_append, List.find?_eq_none.mpr (by simpa using hbefore), Option.none_or,
        List.find?_cons_of_pos (by simpa using hname)]
    simp [gitHash, hfind, hhash]
  · rintro ⟨hne, rfl⟩
    unfold gitHash at hne ⊢
    cases hfind : file.find? fun l => (fields l)[1]? = some (name ++ [':']) with
    | none => simp [hfind] at hne
    | some line =>
      obtain ⟨hname, before, after, rfl, hbefore⟩ := List.find?_eq_some_iff_append.mp hfind
      refine ⟨before, line, after, rfl, by simpa using hbefore, by simpa using hname, ?_⟩
      cases hthird : (fields line)[2]? with
      | none => simp [hfind, hthird] at hne
      | some h => simp [hthird]

/-- The column of a name, from its first hash on. -/
theorem sameFromFirst_iff (file : Board → List Line) (name : List Char) :
    SameFromFirst file name ↔ AgreesFromFirst (boards.map fun b => gitHash (file b) name) := by
  have hcolumn (bs : List Board) :
      (bs.Pairwise fun b b' => ∀ h, HasHash (file b) name h → HasHash (file b') name h) ↔
        AgreesFromFirst (bs.map fun b => gitHash (file b) name) := by
    induction bs with
    | nil => simp [AgreesFromFirst]
    | cons b bs ih =>
      rw [List.pairwise_cons, ih, List.map_cons]
      by_cases hb : gitHash (file b) name = []
      · simp [hasHash_iff, AgreesFromFirst, hb]
      · have hdrop : (gitHash (file b) name :: bs.map fun b => gitHash (file b) name).dropWhile
            List.isEmpty = gitHash (file b) name :: bs.map fun b => gitHash (file b) name := by
          simp [hb]
        constructor
        · rintro ⟨hfirst, -⟩
          refine ⟨gitHash (file b) name, fun x hx => ?_⟩
          rw [hdrop, List.mem_cons, List.mem_map] at hx
          rcases hx with rfl | ⟨b', hb', rfl⟩
          · rfl
          · exact (hasHash_iff.mp (hfirst b' hb' _ (hasHash_iff.mpr ⟨hb, rfl⟩))).2
        · rintro ⟨h, hall⟩
          rw [hdrop] at hall
          have hsame : ∀ b' ∈ bs, gitHash (file b') name = gitHash (file b) name := by
            intro b' hb'
            rw [hall _ (List.mem_cons_of_mem _ (List.mem_map_of_mem hb')),
              hall _ List.mem_cons_self]
          refine ⟨fun b' hb' g hg => ?_, gitHash (file b) name, fun x hx => ?_⟩
          · rw [hasHash_iff] at hg ⊢
            exact ⟨hg.1, (hsame b' hb').trans hg.2⟩
          · obtain ⟨b', hb', rfl⟩ := List.mem_map.mp ((List.dropWhile_suffix _).subset hx)
            exact hsame b' hb'
  exact hcolumn boards

private theorem secondColumn_of_feedLine {line text : Line} (htext : feedLine line = some text) :
    "feeds/".toList <+: (fields line)[1]?.getD [] := by
  have hprefix : " * feeds/".toList.isPrefixOf line = true := by
    by_contra hno
    rw [feedLine, if_neg hno] at htext
    cases htext
  obtain ⟨rest, rfl⟩ := List.isPrefixOf_iff_prefix.mp hprefix
  have hsplit : fields (" * feeds/".toList ++ rest) =
      ['*'] :: fields ("feeds/".toList ++ rest) := by
    have hspaces : " * feeds/".toList ++ rest = [] ++ ' ' :: (['*'] ++ ' ' ::
        ("feeds/".toList ++ rest)) := rfl
    rw [hspaces, fields_append_cons _ _ rfl, fields_append_cons _ _ rfl]
    rfl
  have hword : ∃ w ws, fields ("feeds/".toList ++ rest) = ("feeds/".toList ++ w) :: ws := by
    have hdir : ∀ c ∈ "feeds/".toList, isBlank c = false :=
      List.all_iff_forall_prop.mp (by decide)
    have htake : ∀ c ∈ rest.takeWhile (!isBlank ·), isBlank c = false := by
      intro c hc
      simpa using List.mem_takeWhile_imp hc
    have hfirst : IsWord ("feeds/".toList ++ rest.takeWhile (!isBlank ·)) := by
      refine ⟨by simp, fun c hc => ?_⟩
      rcases List.mem_append.mp hc with hc | hc
      · exact hdir c hc
      · exact htake c hc
    have hrest : "feeds/".toList ++ rest = "feeds/".toList ++ rest.takeWhile (!isBlank ·) ++
        rest.dropWhile (!isBlank ·) := by
      rw [List.append_assoc, List.takeWhile_append_dropWhile]
    rw [hrest]
    cases hdrop : rest.dropWhile (!isBlank ·) with
    | nil => exact ⟨rest.takeWhile (!isBlank ·), [], by rw [List.append_nil, hfirst.fields_eq]⟩
    | cons c tail =>
      have hblank : isBlank c = true := by
        have hhead := List.head?_dropWhile_not (!isBlank ·) rest
        simpa [hdrop] using hhead
      refine ⟨rest.takeWhile (!isBlank ·), fields tail, ?_⟩
      rw [fields_append_cons _ _ hblank, hfirst.fields_eq]
      rfl
  obtain ⟨w, ws, hfields⟩ := hword
  rw [hsplit, hfields]
  exact List.prefix_append _ _

/-- The loop reads the feeds that are listed with a readable hash. -/
theorem FeedsWritten.mem_feedRecords_iff {files : GitHashFiles} (hwritten : FeedsWritten files)
    (b : Board) (f h : List Char) :
    (f, h) ∈ feedRecords (files.packages b) ↔
      Readable h ∧ ListsFeed (files.packages b) f h := by
  simp only [feedRecords, List.mem_map, List.mem_filterMap]
  constructor
  · rintro ⟨text, ⟨line, hmem, htext⟩, hpair⟩
    rcases hwritten b line hmem (secondColumn_of_feedLine htext) with
      ⟨f', h', hname, hhash, rfl⟩ | ⟨-, hnone⟩
    · rw [feedLine_hashLine hname hhash] at htext
      split at htext
      next hreadable =>
        obtain rfl := Option.some.inj htext
        rw [readPair_words hname.isWord hhash] at hpair
        obtain ⟨rfl, rfl⟩ : f' = f ∧ h' = h := by simpa using hpair
        refine ⟨hreadable, _, hmem, ?_⟩
        rw [fields_hashLine hname.feed hhash]
        exact ⟨rfl, rfl⟩
      next => cases htext
    · rw [hnone] at htext
      cases htext
  · rintro ⟨hreadable, line, hmem, hname, hthird⟩
    have hprefix : "feeds/".toList <+: (fields line)[1]?.getD [] := by
      rw [hname, Option.getD_some, List.append_assoc]
      exact List.prefix_append _ _
    rcases hwritten b line hmem hprefix with ⟨f', h', hname', hhash, rfl⟩ | ⟨hnone, -⟩
    · rw [fields_hashLine hname'.feed hhash] at hname hthird
      obtain rfl : f' = f := by simpa using hname
      obtain rfl : h' = h := by simpa using hthird
      refine ⟨_, ⟨_, hmem, ?_⟩, readPair_words hname'.isWord hhash⟩
      rw [feedLine_hashLine hname' hhash, if_pos hreadable]
    · rw [hnone] at hthird
      cases hthird

/-- A feed that is listed has a name. -/
theorem FeedsWritten.name_ne {files : GitHashFiles} (hwritten : FeedsWritten files) {b : Board}
    {f h : List Char} (hlists : ListsFeed (files.packages b) f h) : f ≠ [] := by
  obtain ⟨line, hmem, hname, hthird⟩ := hlists
  have hprefix : "feeds/".toList <+: (fields line)[1]?.getD [] := by
    rw [hname, Option.getD_some, List.append_assoc]
    exact List.prefix_append _ _
  rcases hwritten b line hmem hprefix with ⟨f', h', hname', hhash, rfl⟩ | ⟨hnone, -⟩
  · rw [fields_hashLine hname'.feed hhash] at hname
    obtain rfl : f' = f := by simpa using hname
    exact hname'.1
  · rw [hnone] at hthird
    cases hthird

/-- Every line that the loop reads names a feed exactly when every board lists one. -/
theorem FeedsWritten.everyLineNamesFeed_iff {files : GitHashFiles}
    (hwritten : FeedsWritten files) : EveryLineNamesFeed files ↔ EveryBoardHasFeed files := by
  refine forall_congr' fun b => ?_
  have hrecords (r : List Char × List Char) (hr : r ∈ feedRecords (files.packages b)) :
      Readable r.2 ∧ ListsFeed (files.packages b) r.1 r.2 :=
    (hwritten.mem_feedRecords_iff b r.1 r.2).mp hr
  cases hread : feedRecords (files.packages b) with
  | nil =>
    refine iff_of_false (fun hnames => ?_) ?_
    · refine absurd (hnames (readPair []) ?_) (by decide)
      simp [hereString, hread]
    · rintro ⟨f, h, hreadable, hlists⟩
      have hmem := (hwritten.mem_feedRecords_iff b f h).mpr ⟨hreadable, hlists⟩
      rw [hread] at hmem
      cases hmem
  | cons r rs =>
    refine iff_of_true (fun r' hr' => ?_) ?_
    · have hhere : hereString (files.packages b) = feedRecords (files.packages b) := by
        simp [hereString, hread]
      rw [hhere] at hr'
      exact hwritten.name_ne (hrecords r' hr').2
    · obtain ⟨hreadable, hlists⟩ := hrecords r (hread ▸ List.mem_cons_self)
      exact ⟨r.1, r.2, hreadable, hlists⟩

private theorem RecordsAgree_iff {files : GitHashFiles} (hwritten : FeedsWritten files) :
    RecordsAgree files ↔ ∀ b b' f h h', Readable h → Readable h' →
      ListsFeed (files.packages b) f h → ListsFeed (files.packages b') f h' → h = h' := by
  simp only [RecordsAgree, hwritten.mem_feedRecords_iff]
  exact ⟨fun hall b b' f h h' hr hr' hl hl' => hall b b' f h h' ⟨hr, hl⟩ ⟨hr', hl'⟩,
    fun hall b b' f h h' hl hl' => hall b b' f h h' hl.1 hl'.1 hl.2 hl'.2⟩

private theorem tbLists_iff (files : GitHashFiles) :
    (∀ b, tbPackages files b = tbLists files b) ↔
      ∀ b h, HasHash (files.packages b) "turris-build".toList h ↔
        HasHash (files.lists b) "turris-build".toList h := by
  refine forall_congr' fun b => ⟨fun hsame h => ?_, fun hsame => ?_⟩
  · rw [hasHash_iff, hasHash_iff, ← tbPackages, ← tbLists, hsame]
  · replace hsame (h : List Char) : (h ≠ [] ∧ tbPackages files b = h) ↔
        (h ≠ [] ∧ tbLists files b = h) := (hasHash_iff.symm.trans (hsame h)).trans hasHash_iff
    by_cases hpackages : tbPackages files b = []
    · by_contra hne
      have hlists : tbLists files b ≠ [] := fun h => hne (hpackages.trans h.symm)
      exact hlists (hpackages.symm.trans ((hsame _).mpr ⟨hlists, rfl⟩).2).symm
    · exact ((hsame _).mp ⟨hpackages, rfl⟩).2.symm

/-- `verify` succeeds exactly when what its loops compare is alike and every board lists
a feed. -/
theorem FeedsWritten.verify_eq_zero_iff {files : GitHashFiles} (hwritten : FeedsWritten files) :
    verify files = 0 ↔ ComparedAlike files ∧ EveryBoardHasFeed files := by
  rw [Release.verify_eq_zero_iff, RecordsAgree_iff hwritten, hwritten.everyLineNamesFeed_iff,
    tbLists_iff]
  have htb := sameFromFirst_iff files.packages "turris-build".toList
  have howrt := sameFromFirst_iff files.packages "openwrt".toList
  have hlists := sameFromFirst_iff files.lists "updater-lists".toList
  constructor
  · rintro ⟨h₁, h₂, h₃, h₄, h₅, h₆⟩
    exact ⟨⟨htb.mpr h₁, h₂, howrt.mpr h₃, hlists.mpr h₄, h₅⟩, h₆⟩
  · rintro ⟨halike, h₆⟩
    exact ⟨htb.mp halike.tb, halike.tbLists, howrt.mp halike.openwrt, hlists.mp halike.updaterLists,
      halike.feeds, h₆⟩

private theorem hasHash_unique {file : List Line} {name h h' : List Char}
    (hh : HasHash file name h) (hh' : HasHash file name h') : h = h' :=
  (hasHash_iff.mp hh).2.symm.trans (hasHash_iff.mp hh').2

private theorem exists_forall_hasHash_iff (file : Board → List Line) (name : List Char) :
    (∃ h, ∀ b, HasHash (file b) name h) ↔
      SameFromFirst file name ∧ ∃ h, HasHash (file .omniaNg) name h := by
  constructor
  · rintro ⟨h, hall⟩
    refine ⟨List.pairwise_of_forall fun b b' g hg => ?_, h, hall _⟩
    rw [hasHash_unique hg (hall b)]
    exact hall b'
  · rintro ⟨hsame, h, hfirst⟩
    refine ⟨h, fun b => ?_⟩
    have hbehind := (List.pairwise_cons.mp hsame).1
    cases b with
    | omniaNg => exact hfirst
    | mox => exact hbehind .mox (by decide) h hfirst
    | omnia => exact hbehind .omnia (by decide) h hfirst
    | turris1x => exact hbehind .turris1x (by decide) h hfirst

/-- The files are consistent exactly when what the loops compare is alike, the primary
board has the hashes and no difference of feeds is hidden. -/
theorem consistent_iff (files : GitHashFiles) :
    Consistent files ↔ ComparedAlike files ∧ PrimaryComplete files ∧ NothingHidden files := by
  constructor
  · rintro ⟨⟨h, htb⟩, howrt, hlists, hfeeds⟩
    obtain ⟨hsame, hprimary⟩ := (exists_forall_hasHash_iff files.packages _).mp
      ⟨h, fun b => (htb b).1⟩
    obtain ⟨howrt, howrt'⟩ := (exists_forall_hasHash_iff files.packages _).mp howrt
    obtain ⟨hlists, hlists'⟩ := (exists_forall_hasHash_iff files.lists _).mp hlists
    refine ⟨⟨hsame, fun b g => ?_, howrt, hlists, fun b b' f g g' _ _ => hfeeds b b' f g g'⟩,
      ⟨hprimary, howrt', hlists'⟩, fun b b' f g g' _ => hfeeds b b' f g g'⟩
    exact ⟨fun hg => hasHash_unique (htb b).1 hg ▸ (htb b).2,
      fun hg => hasHash_unique (htb b).2 hg ▸ (htb b).1⟩
  · rintro ⟨halike, hprimary, hhidden⟩
    obtain ⟨h, htb⟩ := (exists_forall_hasHash_iff files.packages _).mpr
      ⟨halike.tb, hprimary.tb⟩
    refine ⟨⟨h, fun b => ⟨htb b, (halike.tbLists b h).mp (htb b)⟩⟩,
      (exists_forall_hasHash_iff files.packages _).mpr ⟨halike.openwrt, hprimary.openwrt⟩,
      (exists_forall_hasHash_iff files.lists _).mpr ⟨halike.updaterLists, hprimary.updaterLists⟩,
      fun b b' f g g' hg hg' => ?_⟩
    by_cases hr : Readable g
    · by_cases hr' : Readable g'
      · exact halike.feeds b b' f g g' hr hr' hg hg'
      · exact (hhidden b' b f g' g hr' hg' hg).symm
    · exact hhidden b b' f g g' hr hg hg'

/-- Files of a small build with one feed, whose `turris-build` lines are given. -/
def smallBuild (tb : Board → List Line) : GitHashFiles where
  packages b := tb b ++ [" * openwrt: 3f".toList, " * feeds/luci: 5e".toList]
  lists b := tb b ++ [" * updater-lists: 7d".toList]

/-- The line of `turris-build` in a git-hash file. -/
def tbLine : List Line := [" * turris-build: 9c".toList]

/-- The line of the feed is written as builds write it. -/
private theorem smallBuild_written {tb : Board → List Line}
    (htb : ∀ b, ∀ line ∈ tb b, line ∈ tbLine) : FeedsWritten (smallBuild tb) := by
  intro b line hline hprefix
  simp only [smallBuild, List.mem_append, List.mem_cons, List.not_mem_nil, or_false] at hline
  rcases hline with hline | rfl | rfl
  · obtain rfl := List.mem_singleton.mp (htb b line hline)
    exact absurd hprefix (by decide)
  · exact absurd hprefix (by decide)
  · refine .inl ⟨"luci".toList, "5e".toList, ⟨by decide, ?_⟩, by decide, rfl⟩
    exact List.all_iff_forall_prop.mp (by decide)

end TurrisBuild.Release
