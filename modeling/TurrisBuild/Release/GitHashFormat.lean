import TurrisBuild.Release.Pinning

/-!
# The format of git-hash

`store_hash` of `compile_pkgs` writes the commits of a build into `git-hash`.
Three readers take the file apart again, each in its own way: `git_hash` and
`feeds` of `helpers/new_release.sh`, and `get_hash` of
`helpers/checkout_repo_branch.sh`. They agree with the writer as long as there is
a feed and no name is changed on its way into `awk`.
-/

namespace TurrisBuild.Release

open Fields

/-- A nonempty string of hexadecimal digits in either case. -/
def IsHexadecimal (h : List Char) : Prop := h ≠ [] ∧ ∀ c ∈ h, c.toLower ∈ hexDigits

/-- The commits of a build: of turris-build, of OpenWrt and of the directories in `feeds`. -/
structure BuildHashes where
  turrisBuild : List Char
  openwrt : List Char
  feeds : Feeds
  turrisBuild_hex : IsHexadecimal turrisBuild
  openwrt_hex : IsHexadecimal openwrt
  feeds_name : ∀ feed ∈ feeds, IsName feed.1
  feeds_hex : ∀ feed ∈ feeds, IsHexadecimal feed.2
  feeds_nodup : (feeds.map Prod.fst).Nodup

/-- The repositories in the order in which they are written. -/
def BuildHashes.repositories (b : BuildHashes) : Feeds :=
  ("turris-build".toList, b.turrisBuild) :: ("openwrt".toList, b.openwrt) ::
    b.feeds.map fun feed => ("feeds/".toList ++ feed.1, feed.2)

/-- The commit of a repository, if there is one of this name. -/
def BuildHashes.recorded (b : BuildHashes) (name : List Char) : Option (List Char) :=
  b.repositories.lookup name

/-- `store_hash` -/
def storeHash (b : BuildHashes) : List Line :=
  ["Project was build from following repositories:".toList, [],
    hashLine ("turris-build".toList, b.turrisBuild), hashLine ("openwrt".toList, b.openwrt)] ++
  b.feeds.map (fun feed => hashLine ("feeds/".toList ++ feed.1, feed.2)) ++ [[]]

/-- How an `awk` reads the value of its option `-v`. It expands escape sequences,
not all of which are specified, and none of which ends in a colon. -/
structure AwkOption where
  read : List Char → List Char
  read_plain : ∀ value, '\\' ∉ value → read value = value
  read_colon : ∀ value, ∃ start, read (value ++ [':']) = start ++ [':']

/-- `git_hash` with any name. -/
def awkGitHash (awk : AwkOption) (file : List Line) (feed : List Char) : List Char :=
  match file.find? fun line => (fields line)[1]? = some (awk.read (feed ++ [':'])) with
  | some line => (fields line)[2]?.getD []
  | none => []

/-- For a plain name this is `git_hash` as `verify` uses it. -/
theorem awkGitHash_plain (awk : AwkOption) (file : List Line) {feed : List Char}
    (hfeed : '\\' ∉ feed) : awkGitHash awk file feed = gitHash file feed := by
  have hread : awk.read (feed ++ [':']) = feed ++ [':'] := awk.read_plain _ (by simpa using hfeed)
  simp only [awkGitHash, hread]
  rfl

/-- The variable `hashes`: name and hash of every line but the first with a star. -/
def hashes (file : List Line) : List Line :=
  ((file.drop 1).filter fun line => (fields line)[0]? = some ['*']).map fun line =>
    (fields line)[1]?.getD [] ++ (fields line)[2]?.getD []

/-- `get_hash`, as the lines it prints. The here-string holds an empty line if
there are no hashes. -/
def getHash (awk : AwkOption) (hashes : List Line) (name : List Char) : List Line :=
  ((if hashes.isEmpty then [[]] else hashes).filter fun line =>
    (line.splitOn ':')[0]?.getD [] = awk.read name).map fun line => (line.splitOn ':')[1]?.getD []

/-- The loop of `feeds` on the file of one board, with `FEEDS` still empty. -/
def readFeeds (board : Board) (file : List Line) : Option (Feeds × List Mismatch) :=
  (hereString file).foldlM (feedsStep board) ([], [])

/-- All three readers recover what was written, the first two for this name. -/
structure ReadBack (awk : AwkOption) (b : BuildHashes) (name : List Char) : Prop where
  gitHash : awkGitHash awk (storeHash b) name = (b.recorded name).getD []
  getHash : getHash awk (hashes (storeHash b)) name = (b.recorded name).toList
  feeds : ∀ board, ∃ collected, readFeeds board (storeHash b) = some (collected, []) ∧
    ∀ feed, collected.lookup feed = b.feeds.lookup feed

/-- The commit of the repository whose name with a colon is the label. -/
def BuildHashes.labelled (b : BuildHashes) (label : List Char) : Option (List Char) :=
  (b.repositories.find? fun repository => repository.1 ++ [':'] = label).map Prod.snd

/-- The escape sequences in a name do not lead to the commit of another name. -/
def ReadsName (awk : AwkOption) (b : BuildHashes) (name : List Char) : Prop :=
  b.labelled (awk.read (name ++ [':'])) = b.recorded name ∧
    b.recorded (awk.read name) = b.recorded name

/-! ### Names and hashes -/

private theorem IsHexadecimal.ne {h : List Char} (hh : IsHexadecimal h) {c d : Char} (hc : c ∈ h)
    (hd : d.toLower ∉ hexDigits) : c ≠ d := by
  rintro rfl
  exact hd (hh.2 c hc)

private theorem isBlank_eq_false {c : Char} (hspace : c ≠ ' ') (htab : c ≠ '\t') :
    isBlank c = false := by
  simp [isBlank, hspace, htab]

private theorem IsHexadecimal.isWord {h : List Char} (hh : IsHexadecimal h) : IsWord h :=
  ⟨hh.1, fun _ hc => isBlank_eq_false (hh.ne hc (by decide)) (hh.ne hc (by decide))⟩

private theorem IsHexadecimal.noColon {h : List Char} (hh : IsHexadecimal h) : ':' ∉ h :=
  fun hc => hh.ne hc (by decide) rfl

private theorem IsHexadecimal.readable {h : List Char} (hh : IsHexadecimal h) : Readable h := by
  obtain ⟨c, tail, rfl⟩ := List.exists_cons_of_ne_nil hh.1
  simp [Readable, hh.ne List.mem_cons_self (show ('\\').toLower ∉ hexDigits by decide),
    hh.ne List.mem_cons_self (show 's'.toLower ∉ hexDigits by decide)]

private theorem IsName.noColon {name : List Char} (hname : IsName name) : ':' ∉ name :=
  fun hc => (hname.2 _ hc).2 rfl

/-- Every repository that is written has a name and a hash. -/
theorem BuildHashes.repositories_wellFormed (b : BuildHashes) :
    ∀ repository ∈ b.repositories, IsName repository.1 ∧ IsHexadecimal repository.2 := by
  have hfixed (name : List Char) (hname : name ≠ [])
      (hall : (name.all fun c => !c.isWhitespace && c != ':') = true) : IsName name :=
    ⟨hname, by simpa using hall⟩
  intro repository hmem
  simp only [repositories, List.mem_cons, List.mem_map] at hmem
  rcases hmem with rfl | rfl | ⟨feed, hfeed, rfl⟩
  · exact ⟨hfixed "turris-build".toList (by decide) (by decide), b.turrisBuild_hex⟩
  · exact ⟨hfixed "openwrt".toList (by decide) (by decide), b.openwrt_hex⟩
  · exact ⟨(b.feeds_name feed hfeed).feed, b.feeds_hex feed hfeed⟩

/-- No two repositories have the same name. -/
theorem BuildHashes.repositories_nodup (b : BuildHashes) :
    (b.repositories.map Prod.fst).Nodup := by
  have hfeeds : (b.feeds.map fun feed => "feeds/".toList ++ feed.1).Nodup := by
    have hinj : Function.Injective ("feeds/".toList ++ ·) := fun _ _ h => List.append_cancel_left h
    simpa [List.map_map, Function.comp_def] using b.feeds_nodup.map hinj
  have hother (name : List Char) (hname : ¬ "feeds/".toList <+: name) :
      name ∉ b.feeds.map fun feed => "feeds/".toList ++ feed.1 := by
    intro hmem
    obtain ⟨feed, -, rfl⟩ := List.mem_map.mp hmem
    exact hname (List.prefix_append _ _)
  have hmap : b.repositories.map Prod.fst = "turris-build".toList :: "openwrt".toList ::
      b.feeds.map fun feed => "feeds/".toList ++ feed.1 := by
    simp [repositories, Function.comp_def]
  rw [hmap, List.nodup_cons, List.nodup_cons, List.mem_cons]
  refine ⟨?_, hother _ (by decide), hfeeds⟩
  rintro (h | h)
  · exact absurd h (by decide)
  · exact hother _ (by decide) h

/-- The file is its header, a line for every repository and an empty line. -/
theorem storeHash_eq (b : BuildHashes) :
    storeHash b = "Project was build from following repositories:".toList :: [] ::
      (b.repositories.map hashLine ++ [[]]) := by
  simp [storeHash, BuildHashes.repositories, Function.comp_def]

/-! ### The readers -/

private theorem header_secondField_ne (start : List Char) :
    (fields "Project was build from following repositories:".toList)[1]? ≠
      some (start ++ [':']) := by
  have hwas : (fields "Project was build from following repositories:".toList)[1]? =
      some "was".toList := by decide
  rw [hwas]
  intro h
  have hlast := congrArg List.getLast? (Option.some.inj h)
  rw [List.getLast?_concat] at hlast
  exact absurd hlast (by decide)

private theorem find?_hashLine {l : Feeds} (hl : ∀ r ∈ l, IsName r.1 ∧ IsHexadecimal r.2)
    (label : List Char) :
    (l.map hashLine).find? (fun line => (fields line)[1]? = some label) =
      (l.find? fun r => r.1 ++ [':'] = label).map hashLine := by
  rw [List.find?_map]
  refine congrArg _ (find?_congr fun r hr => ?_)
  simp [fields_hashLine (hl r hr).1 (hl r hr).2.isWord]

/-- `git_hash` finds the repository with the label that `awk` compares with. -/
theorem awkGitHash_storeHash (awk : AwkOption) (b : BuildHashes) (name : List Char) :
    awkGitHash awk (storeHash b) name = (b.labelled (awk.read (name ++ [':']))).getD [] := by
  obtain ⟨start, hlabel⟩ := awk.read_colon name
  have hheader := header_secondField_ne start
  rw [awkGitHash, hlabel, storeHash_eq, List.find?_cons_of_neg (by rwa [decide_eq_true_iff]),
    List.find?_cons_of_neg (by simp), List.find?_append,
    find?_hashLine b.repositories_wellFormed, BuildHashes.labelled]
  cases hfind : b.repositories.find? fun r => r.1 ++ [':'] = start ++ [':'] with
  | none => simp
  | some r =>
    obtain ⟨hname, hhash⟩ := b.repositories_wellFormed r (List.mem_of_find?_eq_some hfind)
    simp [fields_hashLine hname hhash.isWord]

/-- The variable `hashes` has a line for every repository. -/
theorem hashes_storeHash (b : BuildHashes) :
    hashes (storeHash b) = b.repositories.map fun r => r.1 ++ ':' :: r.2 := by
  have hlines (l : Feeds) (hl : ∀ r ∈ l, IsName r.1 ∧ IsHexadecimal r.2) :
      ((l.map hashLine ++ [[]]).filter fun line => (fields line)[0]? = some ['*']).map
        (fun line => (fields line)[1]?.getD [] ++ (fields line)[2]?.getD []) =
      l.map fun r => r.1 ++ ':' :: r.2 := by
    induction l with
    | nil => simp
    | cons r l ih =>
      obtain ⟨hname, hhash⟩ := hl r List.mem_cons_self
      have hrest := ih fun r hr => hl r (List.mem_cons_of_mem _ hr)
      have hfields := fields_hashLine hname hhash.isWord
      rw [List.map_cons, List.cons_append, List.filter_cons_of_pos (by simp [hfields]),
        List.map_cons, hrest]
      simp [hfields]
  rw [hashes, storeHash_eq, List.drop_succ_cons, List.drop_zero,
    List.filter_cons_of_neg (by simp)]
  exact hlines b.repositories b.repositories_wellFormed

private theorem splitOn_colon {name hash : List Char} (hname : ':' ∉ name) (hhash : ':' ∉ hash) :
    (name ++ ':' :: hash).splitOn ':' = [name, hash] := by
  have hplain (w : List Char) (hw : ':' ∉ w) : w.splitOnP (· == ':') = [w] := by
    refine List.splitOnP_eq_singleton fun c hc => ?_
    simp only [beq_eq_false_iff_ne, ne_eq]
    rintro rfl
    exact hw hc
  rw [List.splitOn, List.splitOnP_append_cons _ _ (by simp), hplain name hname, hplain hash hhash]
  rfl

private theorem filter_key {l : Feeds} (hnodup : (l.map Prod.fst).Nodup) (name : List Char) :
    (l.filter fun r => r.1 = name).map Prod.snd = (l.lookup name).toList := by
  induction l with
  | nil => rfl
  | cons r l ih =>
    rw [List.map_cons, List.nodup_cons] at hnodup
    obtain ⟨key, hash⟩ := r
    by_cases hkey : key = name
    · subst hkey
      have hnone : l.filter (fun r => r.1 = key) = [] := by
        refine List.filter_eq_nil_iff.mpr fun r hr => ?_
        have hne : r.1 ≠ key := fun h => hnodup.1 (List.mem_map.mpr ⟨r, hr, h⟩)
        simpa using hne
      simp [hnone]
    · have hkey' : (name == key) = false := by simpa using Ne.symm hkey
      rw [List.filter_cons_of_neg (by simpa using hkey), List.lookup_cons, hkey']
      exact ih hnodup.2

/-- `get_hash` prints the hash of the one repository that `awk` compares equal. -/
theorem getHash_storeHash (awk : AwkOption) (b : BuildHashes) (name : List Char) :
    getHash awk (hashes (storeHash b)) name = (b.recorded (awk.read name)).toList := by
  have hsome : (b.repositories.map fun r => r.1 ++ ':' :: r.2).isEmpty = false := rfl
  have hsplit : ∀ r ∈ b.repositories, (r.1 ++ ':' :: r.2).splitOn ':' = [r.1, r.2] := by
    intro r hr
    obtain ⟨hname, hhash⟩ := b.repositories_wellFormed r hr
    exact splitOn_colon hname.noColon hhash.noColon
  rw [getHash, hashes_storeHash, hsome, if_neg (by simp), List.filter_map, List.map_map]
  have hfilter : b.repositories.filter ((fun line : Line =>
      decide ((line.splitOn ':')[0]?.getD [] = awk.read name)) ∘ fun r => r.1 ++ ':' :: r.2) =
      b.repositories.filter fun r => r.1 = awk.read name :=
    List.filter_congr fun r hr => by simp [hsplit r hr]
  rw [hfilter, BuildHashes.recorded, ← filter_key b.repositories_nodup]
  refine List.map_congr_left fun r hr => ?_
  simp [hsplit r (List.mem_of_mem_filter hr)]

private theorem feedLine_fixed (hash : List Char) :
    feedLine (hashLine ("turris-build".toList, hash)) = none ∧
      feedLine (hashLine ("openwrt".toList, hash)) = none := by
  constructor <;> rfl

/-- What the loop of `feeds` reads are the feeds that were written. -/
theorem feedRecords_storeHash (b : BuildHashes) : feedRecords (storeHash b) = b.feeds := by
  have hlines (l : Feeds) (hl : ∀ feed ∈ l, IsName feed.1 ∧ IsHexadecimal feed.2) :
      ((l.map fun feed => hashLine ("feeds/".toList ++ feed.1, feed.2)).filterMap feedLine).map
        readPair = l := by
    induction l with
    | nil => rfl
    | cons feed l ih =>
      obtain ⟨hname, hhash⟩ := hl feed List.mem_cons_self
      have hline : feedLine (hashLine ("feeds/".toList ++ feed.1, feed.2)) =
          some (feed.1 ++ ' ' :: feed.2) := by
        rw [feedLine_hashLine hname hhash.isWord, if_pos hhash.readable]
      rw [List.map_cons, List.filterMap_cons_some hline, List.map_cons,
        readPair_words hname.isWord hhash.isWord, ih fun r hr => hl r (List.mem_cons_of_mem _ hr)]
  have hheader : feedLine "Project was build from following repositories:".toList = none := by
    decide
  have hblank : feedLine [] = none := by decide
  rw [feedRecords, storeHash, List.filterMap_append, List.filterMap_append,
    List.filterMap_cons_none hheader, List.filterMap_cons_none hblank,
    List.filterMap_cons_none (feedLine_fixed _).1, List.filterMap_cons_none (feedLine_fixed _).2,
    List.filterMap_cons_none hblank, List.filterMap_nil, List.nil_append, List.append_nil]
  exact hlines b.feeds fun feed hfeed => ⟨b.feeds_name feed hfeed, b.feeds_hex feed hfeed⟩

private theorem foldlM_feedsStep_fresh (board : Board) {records feeds : Feeds}
    (hnames : ∀ r ∈ records, r.1 ≠ []) (hnodup : ((feeds ++ records).map Prod.fst).Nodup) :
    records.foldlM (feedsStep board) (feeds, []) = some (feeds ++ records, []) := by
  induction records generalizing feeds with
  | nil => simp
  | cons record records ih =>
    obtain ⟨feed, hsh⟩ := record
    have hname : feed ≠ [] := hnames _ List.mem_cons_self
    have hfresh : feed ∉ feeds.map Prod.fst := by
      rw [List.map_append, List.map_cons, List.nodup_append] at hnodup
      exact fun h => hnodup.2.2 feed h feed List.mem_cons_self rfl
    have hlookup : feeds.lookup feed = none := by
      refine List.lookup_eq_none_iff.mpr fun p hp => ?_
      have hne : feed ≠ p.1 := fun h => hfresh (h ▸ List.mem_map_of_mem hp)
      simpa using hne
    have hstep : feedsStep board (feeds, []) (feed, hsh) = some (feeds ++ [(feed, hsh)], []) := by
      simp [feedsStep, hname, hlookup, assign_of_not_mem hfresh]
    rw [List.foldlM_cons, hstep, Option.bind_eq_bind, Option.bind_some,
      ih (fun r hr => hnames r (List.mem_cons_of_mem _ hr)) (by simpa using hnodup)]
    simp

/-- The loop of `feeds` collects the feeds, and ends the script if there are none. -/
theorem readFeeds_storeHash (board : Board) (b : BuildHashes) :
    readFeeds board (storeHash b) = if b.feeds = [] then none else some (b.feeds, []) := by
  rw [readFeeds, hereString, feedRecords_storeHash]
  split
  next hnone =>
    have hnil : b.feeds = [] := by simpa using hnone
    rw [if_pos hnil]
    rfl
  next hsome =>
    have hne : b.feeds ≠ [] := by simpa using hsome
    rw [if_neg hne]
    exact foldlM_feedsStep_fresh board (fun feed hfeed => (b.feeds_name feed hfeed).1)
      (by simpa using b.feeds_nodup)

/-! ### The format -/

private theorem find?_eq_lookup (l : Feeds) (name : List Char) :
    (l.find? fun r => r.1 = name).map Prod.snd = l.lookup name := by
  induction l with
  | nil => rfl
  | cons r l ih =>
    obtain ⟨key, hash⟩ := r
    by_cases hkey : key = name
    · simp [hkey]
    · have hkey' : (name == key) = false := by simpa using Ne.symm hkey
      rw [List.find?_cons_of_neg (by simpa using hkey), List.lookup_cons, hkey']
      exact ih

/-- A name without escape sequences reaches `awk` as it is. -/
theorem readsName_plain (awk : AwkOption) (b : BuildHashes) {name : List Char}
    (hname : '\\' ∉ name) : ReadsName awk b name := by
  refine ⟨?_, by rw [awk.read_plain name hname]⟩
  rw [awk.read_plain _ (by simpa using hname), BuildHashes.labelled, BuildHashes.recorded,
    ← find?_eq_lookup]
  refine congrArg _ (find?_congr fun r _ => ?_)
  simp

private theorem getD_injective {x y : Option (List Char)} (hx : ∀ h ∈ x, h ≠ [])
    (hy : ∀ h ∈ y, h ≠ []) : x.getD [] = y.getD [] ↔ x = y := by
  cases x with
  | none =>
    cases y with
    | none => simp
    | some h => simpa using (hy h rfl).symm
  | some g =>
    cases y with
    | none => simpa using hx g rfl
    | some h => simp

private theorem BuildHashes.labelled_ne_nil (b : BuildHashes) (label : List Char) :
    ∀ h ∈ b.labelled label, h ≠ [] := by
  intro h hh
  obtain ⟨r, hr, rfl⟩ := Option.map_eq_some_iff.mp hh
  exact (b.repositories_wellFormed r (List.mem_of_find?_eq_some hr)).2.1

private theorem BuildHashes.recorded_ne_nil (b : BuildHashes) (name : List Char) :
    ∀ h ∈ b.recorded name, h ≠ [] := by
  intro h hh
  obtain ⟨r, hr, rfl⟩ := Option.map_eq_some_iff.mp ((find?_eq_lookup _ _).trans hh)
  exact (b.repositories_wellFormed r (List.mem_of_find?_eq_some hr)).2.1

/-- **The format is lossless.** For every build and every name, the three readers
recover what was written exactly when there is a feed and the escape sequences
that the name may have do not lead to another commit. -/
theorem read_back_iff (awk : AwkOption) (b : BuildHashes) (name : List Char) :
    ReadBack awk b name ↔ b.feeds ≠ [] ∧ ('\\' ∈ name → ReadsName awk b name) := by
  have hreads : ('\\' ∈ name → ReadsName awk b name) ↔ ReadsName awk b name :=
    ⟨fun h => by_cases h (readsName_plain awk b), fun h _ => h⟩
  rw [hreads]
  constructor
  · rintro ⟨hgit, hget, hfeeds⟩
    refine ⟨fun hnil => ?_, ?_, ?_⟩
    · obtain ⟨collected, hrun, -⟩ := hfeeds .omnia
      simp [readFeeds_storeHash, hnil] at hrun
    · rw [awkGitHash_storeHash] at hgit
      exact (getD_injective (b.labelled_ne_nil _) (b.recorded_ne_nil _)).mp hgit
    · rw [getHash_storeHash] at hget
      simpa only [Option.head?_toList] using congrArg List.head? hget
  · rintro ⟨hne, hlabel, hrecorded⟩
    refine ⟨?_, ?_, fun board => ⟨b.feeds, ?_, fun _ => rfl⟩⟩
    · rw [awkGitHash_storeHash, hlabel]
    · rw [getHash_storeHash, hrecorded]
    · rw [readFeeds_storeHash, if_neg hne]

/-- A build without feeds. -/
def bareBuild : BuildHashes where
  turrisBuild := "9c".toList
  openwrt := "3f".toList
  feeds := []
  turrisBuild_hex := ⟨by decide, List.all_iff_forall_prop.mp (by decide)⟩
  openwrt_hex := ⟨by decide, List.all_iff_forall_prop.mp (by decide)⟩
  feeds_name := by simp
  feeds_hex := by simp
  feeds_nodup := by simp

/-- An `awk` as it behaves on names without a backslash. -/
def plainAwk : AwkOption where
  read value := value
  read_plain _ _ := rfl
  read_colon value := ⟨value, rfl⟩

/-- The empty here-string ends the script on the primary board. -/
theorem bare_build_not_read_back :
    readFeeds .omniaNg (storeHash bareBuild) = none ∧
      ¬ ReadBack plainAwk bareBuild "openwrt".toList := by
  refine ⟨by decide, fun h => ?_⟩
  obtain ⟨collected, hrun, -⟩ := h.feeds .omniaNg
  have hnone : readFeeds .omniaNg (storeHash bareBuild) = none := by decide
  rw [hnone] at hrun
  cases hrun

end TurrisBuild.Release
