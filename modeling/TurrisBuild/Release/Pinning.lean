import Mathlib.Data.Bool.AllAny
import Mathlib.Data.List.Nodup
import TurrisBuild.Release.FeedsConf
import TurrisBuild.Release.Verify

/-!
# Pinning the feeds of a release

`release` edits `feeds.conf` only, while a board also reads its own file, and
the commit is appended to the whole line. A feed is pinned exactly when its line
is in `feeds.conf` with three columns and nothing behind a url that has no
reference yet, or when the board's file happens to carry the commit already.
-/

namespace TurrisBuild.Release

open Fields

/-- The kind of source of real feeds. -/
def srcGitFull : List Char := "src-git-full".toList

/-- The url refers to the commit and not to a branch. -/
def RefersTo (url hash : List Char) : Prop := feedRefIsBranch url = false ∧ feedRef url false = hash

/-- The file resolves the feed to the commit. -/
def Resolves (file : List Line) (feed hash : List Char) : Prop :=
  ∃ url, getFeed srcGitFull feed file = some url ∧ RefersTo url hash

/-- The digits of a commit hash. -/
def hexDigits : List Char := "0123456789abcdef".toList

/-- A commit hash: a nonempty string of hexadecimal digits. -/
def IsHash (h : List Char) : Prop := h ≠ [] ∧ ∀ c ∈ h, c ∈ hexDigits

instance (h : List Char) : Decidable (IsHash h) :=
  haveI := List.decidableBAll (· ∈ hexDigits) h
  inferInstanceAs (Decidable (h ≠ [] ∧ ∀ c ∈ h, c ∈ hexDigits))

/-- The files record commits: the hashes are hexadecimal. -/
structure Genuine (files : GitHashFiles) : Prop where
  hashes : ∀ b, ∀ r ∈ feedRecords (files.packages b), IsHash r.2
  openwrt : ∀ b, owrtPackages files b = [] ∨ IsHash (owrtPackages files b)
  updaterLists : ∀ b, updaterLists files b = [] ∨ IsHash (updaterLists files b)

/-- The four comparisons report nothing, and `FEEDS` is what they collect. -/
structure NoMismatch (files : GitHashFiles) (collected : Feeds) : Prop where
  tb : (tbHash files).2 = []
  openwrt : (owrtHash files).2 = []
  updaterLists : (listsHash files).2 = []
  feeds : feeds files = some (collected, [])

/-- Every feed line of the file has a url that is more than a reference. -/
def ProperUrls (conf : List Line) : Prop :=
  ∀ line ∈ conf, ∀ name, namesFeed srcGitFull name line = true → baseUrl (urlColumn line) ≠ []

/-- The edit turns the url column of the line into a commit: there are three
columns, and no blank follows a url without a reference. -/
def PinsLine (line : Line) : Prop :=
  (fields line).length = 3 ∧ ((urlColumn line).any isRefMark = true ∨ ¬EndsBlank line)

instance (line : Line) : Decidable (PinsLine line) := inferInstanceAs (Decidable (_ ∧ _))

/-- The edits whose name is that of a line to `awk`. -/
def matching (awk : AwkComparison) (line : Line) (edits : Feeds) : Feeds :=
  edits.filter fun edit => (fields line)[1]?.any (awk.equal · edit.1)

/-- The edits leave the line at the commit: the last one that matches sets it, and
the line is one that is pinned, or none matches and it refers to it already. -/
def PinnedLast (line : Line) (hash : List Char) : Option (List Char × List Char) → Prop
  | some edit => PinsLine line ∧ edit.2 = hash
  | none => RefersTo (urlColumn line) hash

/-- A release pins the feed for a board. The line that the board finds first is one
of `feeds.conf` that the edits pin: every entry of `FEEDS` that matches it, as any
may come last, or else the last of the two edits before them. Or it is in the file
of the board and refers to the commit already. -/
def PinnedByRelease (awk : AwkComparison) (early entries : Feeds) (conf : List Line)
    (boardConf : Option (List Line)) (feed hash : List Char) : Prop :=
  match conf.find? (namesFeed srcGitFull feed) with
  | some line =>
    (matching awk line entries = [] → PinnedLast line hash (matching awk line early).getLast?) ∧
      ∀ edit ∈ matching awk line entries, PinnedLast line hash (some edit)
  | none => ∃ file ∈ boardConf, Resolves file feed hash

/-! ### Urls -/

/-- A base url has no mark. -/
theorem baseUrl_noMark (url : List Char) : ∀ c ∈ baseUrl url, isRefMark c = false := by
  intro c hc
  simpa using List.mem_takeWhile_imp hc

/-- Digits are no marks. -/
theorem noMark_of_hex {h : List Char} (hh : ∀ c ∈ h, c ∈ hexDigits) :
    ∀ c ∈ h, isRefMark c = false := by
  have hall : ∀ c ∈ hexDigits, isRefMark c = false := List.all_iff_forall_prop.mp (by decide)
  exact fun c hc => hall c (hh c hc)

/-- Digits are no blanks. -/
theorem noBlank_of_hex {h : List Char} (hh : ∀ c ∈ h, c ∈ hexDigits) :
    ∀ c ∈ h, isBlank c = false := by
  have hall : ∀ c ∈ hexDigits, isBlank c = false := List.all_iff_forall_prop.mp (by decide)
  exact fun c hc => hall c (hh c hc)

/-- Digits stand for themselves in the replacement of a substitution. -/
theorem filter_ampersand_of_hex {h : List Char} (hh : ∀ c ∈ h, c ∈ hexDigits) :
    h.filter (· != '&') = h := by
  refine List.filter_eq_self.mpr fun c hc => ?_
  have hall : ∀ c ∈ hexDigits, (c != '&') = true := List.all_iff_forall_prop.mp (by decide)
  exact hall c (hh c hc)

/-- A base url followed by a commit refers to that commit and no other. -/
theorem refersTo_append_iff {base h h' : List Char} (hbase : ∀ c ∈ base, isRefMark c = false)
    (hh : ∀ c ∈ h, isRefMark c = false) : RefersTo (base ++ '^' :: h) h' ↔ h = h' := by
  have hbranch : feedRefIsBranch (base ++ '^' :: h) = false := by
    rw [feedRefIsBranch_mark hbase hh]
    decide
  rw [RefersTo, feedRef_mark (by decide) hh]
  simp [hbranch]

/-- A url without a mark refers to no commit. -/
theorem not_refersTo_of_noMark {url h : List Char} (hurl : ∀ c ∈ url, isRefMark c = false)
    (hh : IsHash h) : ¬RefersTo url h := by
  rintro ⟨-, href⟩
  have hany : url.any isRefMark = false := by simpa using hurl
  have hhead : 'H' ∈ h := by
    rw [← href]
    simp [feedRef, hany]
  exact absurd (hh.2 'H' hhead) (by decide)

/-- A url is its own base url when it has no reference. -/
theorem baseUrl_eq_self_iff (url : List Char) :
    baseUrl url = url ↔ url.any isRefMark = false := by
  simp [baseUrl, List.takeWhile_eq_self_iff]

private theorem baseUrl_append {base x : List Char} (hbase : ∀ c ∈ base, isRefMark c = false) :
    baseUrl (base ++ '^' :: x) = base := by
  have hall : ∀ c ∈ base, (!isRefMark c) = true := by simpa using hbase
  rw [baseUrl, List.takeWhile_append_of_pos hall]
  simp [isRefMark]

/-- A base url has no blanks. -/
theorem baseUrl_isWord {url : List Char} (hurl : IsWord url) (hne : baseUrl url ≠ []) :
    IsWord (baseUrl url) :=
  ⟨hne, fun c hc => hurl.2 c ((List.takeWhile_prefix _).subset hc)⟩

/-! ### The edit of one line -/

/-- What an edit does to the fields of a line. -/
theorem fields_pinLine {line : Line} {vcs name url hash : List Char} {rest : List (List Char)}
    (hfields : fields line = vcs :: name :: url :: rest) (hbase : baseUrl url ≠ [])
    (hhash : ∀ c ∈ hash, isBlank c = false) :
    (PinsLine line → fields (pinLine hash line) =
      [vcs, name, baseUrl url ++ '^' :: hash.filter (· != '&')]) ∧
    (¬PinsLine line → ∃ e es, fields (pinLine hash line) =
      vcs :: name :: baseUrl url :: e :: es) := by
  have hurl : urlColumn line = url := by simp [urlColumn, hfields]
  have hset : pinLine hash line = stripReference line ++ '^' :: hash.filter (· != '&') := rfl
  have hx : ∀ c ∈ '^' :: hash.filter (· != '&'), isBlank c = false := by
    intro c hc
    rcases List.mem_cons.mp hc with rfl | hc
    · decide
    · exact hhash c (List.mem_of_mem_filter hc)
  have hwords : ∀ w ∈ fields line, IsWord w := fun w hw => isWord_of_mem_fields hw
  -- In every case the commit is appended to the fields `vcs name base rest`.
  have hstrip : fields (stripReference line) = vcs :: name :: baseUrl url :: rest ∧
      (EndsBlank (stripReference line) ↔ url.any isRefMark = false ∧ EndsBlank line) := by
    by_cases hmark : baseUrl url = url
    · have hany := (baseUrl_eq_self_iff url).mp hmark
      simp [stripReference, hurl, hmark, hfields, hany]
    · have hany : url.any isRefMark = true := by
        simpa using mt (baseUrl_eq_self_iff url).mpr hmark
      have hrebuilt : ∀ w ∈ vcs :: name :: baseUrl url :: rest, IsWord w := by
        rw [hfields] at hwords
        intro w hw
        simp only [List.mem_cons] at hw hwords
        rcases hw with rfl | rfl | rfl | hw
        · exact hwords _ (.inl rfl)
        · exact hwords _ (.inr (.inl rfl))
        · exact baseUrl_isWord (hwords url (.inr (.inr (.inl rfl)))) hbase
        · exact hwords w (.inr (.inr (.inr hw)))
      have hline : stripReference line =
          List.intercalate [' '] (vcs :: name :: baseUrl url :: rest) := by
        simp [stripReference, hurl, hmark, hfields]
      rw [hline, fields_intercalate hrebuilt]
      exact ⟨rfl, iff_of_false (not_endsBlank_intercalate (by simp) hrebuilt) (by simp [hany])⟩
  obtain ⟨hstripped, hends⟩ := hstrip
  rw [hset]
  by_cases hblank : EndsBlank (stripReference line)
  · have hpins : ¬PinsLine line := by
      rintro ⟨-, hmark | hnot⟩
      · rw [hurl, (hends.mp hblank).1] at hmark
        cases hmark
      · exact hnot (hends.mp hblank).2
    refine ⟨fun h => absurd h hpins, fun _ => ?_⟩
    rw [fields_append_of_endsBlank hblank ⟨by simp, hx⟩, hstripped]
    cases rest with
    | nil => exact ⟨_, [], rfl⟩
    | cons e es => exact ⟨e, es ++ ['^' :: hash.filter (· != '&')], rfl⟩
  · obtain ⟨ws, w, hlast, happend⟩ := fields_append_of_not_endsBlank hblank hx
    rw [hstripped] at hlast
    rw [happend]
    rcases rest.eq_nil_or_concat with rfl | ⟨es, e, rfl⟩
    · have hpins : PinsLine line := by
        refine ⟨by simp [hfields], ?_⟩
        by_contra hno
        push Not at hno
        exact hblank (hends.mpr ⟨by simpa [hurl] using hno.1, hno.2⟩)
      have hsplit : [vcs, name] ++ [baseUrl url] = ws ++ [w] := hlast
      obtain ⟨rfl, hw⟩ := List.append_inj' hsplit rfl
      obtain rfl : baseUrl url = w := by simpa using hw
      exact ⟨fun _ => rfl, fun h => absurd hpins h⟩
    · have hpins : ¬PinsLine line := by
        rintro ⟨hlen, -⟩
        simp [hfields] at hlen
      refine ⟨fun h => absurd h hpins, fun _ => ?_⟩
      have hsplit : (vcs :: name :: baseUrl url :: es) ++ [e] = ws ++ [w] := by
        simpa using hlast
      obtain ⟨rfl, hw⟩ := List.append_inj' hsplit rfl
      cases es with
      | nil => exact ⟨_, [], rfl⟩
      | cons f fs => exact ⟨f, fs ++ [w ++ '^' :: hash.filter (· != '&')], rfl⟩

/-- What every edit keeps of a line: its kind, its name, its base url and
whether the next edit pins it. -/
structure Keeps (vcs name base : List Char) (pins : Prop) (line : Line) : Prop where
  columns : ∃ url rest, fields line = vcs :: name :: url :: rest ∧ baseUrl url = base
  pinned : PinsLine line ↔ pins

/-- An edit keeps them. -/
theorem Keeps.pinLine {vcs name base : List Char} {pins : Prop} {line : Line}
    (hline : Keeps vcs name base pins line) (hbase : base ≠ [])
    {hash : List Char} (hhash : ∀ c ∈ hash, isBlank c = false) :
    Keeps vcs name base pins (pinLine hash line) := by
  obtain ⟨⟨url, rest, hfields, rfl⟩, hpins⟩ := hline
  obtain ⟨hyes, hno⟩ := fields_pinLine hfields hbase hhash
  have hnomark := baseUrl_noMark url
  by_cases hp : PinsLine line
  · refine ⟨⟨_, _, hyes hp, baseUrl_append hnomark⟩, ?_⟩
    rw [← hpins]
    refine iff_of_true ⟨by simp [hyes hp], .inl ?_⟩ hp
    simp [urlColumn, hyes hp, isRefMark]
  · obtain ⟨e, es, hes⟩ := hno hp
    refine ⟨⟨_, _, hes, ?_⟩, ?_⟩
    · exact (baseUrl_eq_self_iff _).mpr (by simpa using hnomark)
    · rw [← hpins]
      exact iff_of_false (by simp [PinsLine, hes]) hp

/-- Edits of one line for one commit after the other. -/
def editLine (hashes : List (List Char)) (line : Line) : Line :=
  hashes.foldl (fun l hash => pinLine hash l) line

/-- So do several edits. -/
theorem Keeps.editLine {vcs name base : List Char} {pins : Prop} {line : Line}
    (hline : Keeps vcs name base pins line) (hbase : base ≠ []) {hashes : List (List Char)}
    (hhashes : ∀ hash ∈ hashes, ∀ c ∈ hash, isBlank c = false) :
    Keeps vcs name base pins (editLine hashes line) := by
  induction hashes generalizing line with
  | nil => exact hline
  | cons hash hashes ih =>
    exact ih (hline.pinLine hbase (hhashes hash List.mem_cons_self))
      fun h hh => hhashes h (List.mem_cons_of_mem _ hh)

/-! ### The edits of all names -/

/-- All edits on one line. -/
def awkEditLine (awk : AwkComparison) (edits : Feeds) (line : Line) : Line :=
  edits.foldl (fun l edit => awkSetLine awk edit.1 edit.2 l) line

/-- Every edit acts on each line by itself. -/
theorem foldl_awkFeedsConfSet (awk : AwkComparison) (edits : Feeds) (conf : List Line) :
    edits.foldl (fun file edit => awkFeedsConfSet awk edit.1 edit.2 file) conf =
      conf.map (awkEditLine awk edits) := by
  induction edits generalizing conf with
  | nil => exact (List.map_id conf).symm
  | cons edit edits ih =>
    rw [List.foldl_cons, ih, awkFeedsConfSet, List.map_map]
    rfl

/-- Only the edits whose names match act on a line. -/
theorem awkEditLine_eq {awk : AwkComparison} {edits : Feeds} {vcs name base : List Char}
    {pins : Prop} {line : Line} (hline : Keeps vcs name base pins line) (hbase : base ≠ [])
    (hedits : ∀ edit ∈ edits, ∀ c ∈ edit.2, isBlank c = false) :
    awkEditLine awk edits line = editLine ((matching awk line edits).map Prod.snd) line := by
  have hsecond {l : Line} (hl : Keeps vcs name base pins l) : (fields l)[1]? = some name := by
    obtain ⟨url, rest, hfields, -⟩ := hl.columns
    simp [hfields]
  unfold matching
  rw [hsecond hline]
  induction edits generalizing line with
  | nil => rfl
  | cons edit edits ih =>
    have hrest : ∀ e ∈ edits, ∀ c ∈ e.2, isBlank c = false :=
      fun e he => hedits e (List.mem_cons_of_mem _ he)
    rw [awkEditLine, List.foldl_cons, awkSetLine, hsecond hline]
    by_cases hequal : (some name).any (awk.equal · edit.1) = true
    · have hset := hline.pinLine hbase (hedits edit List.mem_cons_self)
      rw [if_pos hequal, List.filter_cons_of_pos (by simpa using hequal), List.map_cons, editLine,
        List.foldl_cons]
      exact ih hset hrest
    · rw [if_neg hequal, List.filter_cons_of_neg (by simpa using hequal)]
      exact ih hline hrest

/-- After the edits the line refers to a commit exactly when it was fit to be pinned
and the last edit that matches is of this commit, or when it did and none matches. -/
private theorem refersTo_awkEditLine_iff {awk : AwkComparison} {vcs name base hash : List Char}
    {line : Line} (hline : Keeps vcs name base (PinsLine line) line) (hbase : base ≠ [])
    {edits : Feeds} (hedits : ∀ edit ∈ edits, ∀ c ∈ edit.2, c ∈ hexDigits) (hhash : IsHash hash) :
    RefersTo (urlColumn (awkEditLine awk edits line)) hash ↔
      PinnedLast line hash (matching awk line edits).getLast? := by
  rw [awkEditLine_eq hline hbase fun e he => noBlank_of_hex (hedits e he)]
  rcases (matching awk line edits).eq_nil_or_concat' with hnil | ⟨before, edit, hsplit⟩
  · simp [hnil, editLine, PinnedLast]
  · have hhex : ∀ e ∈ before ++ [edit], ∀ c ∈ e.2, c ∈ hexDigits := by
      intro e he
      rw [← hsplit] at he
      exact hedits e (List.mem_of_mem_filter he)
    have hbefore : ∀ h ∈ before.map Prod.snd, ∀ c ∈ h, isBlank c = false := by
      intro h hh
      obtain ⟨e, he, rfl⟩ := List.mem_map.mp hh
      exact noBlank_of_hex (hhex e (by simp [he]))
    have hlast := hhex edit (by simp)
    have hmid := hline.editLine hbase hbefore
    obtain ⟨⟨url, rest, hfields, rfl⟩, hpins⟩ := hmid
    obtain ⟨hyes, hno⟩ := fields_pinLine hfields hbase (noBlank_of_hex hlast)
    rw [filter_ampersand_of_hex hlast] at hyes
    have hrun : editLine ((before ++ [edit]).map Prod.snd) line =
        pinLine edit.2 (editLine (before.map Prod.snd) line) := by
      rw [List.map_append, editLine, List.foldl_append]
      rfl
    rw [hsplit, hrun, List.getLast?_concat, PinnedLast]
    by_cases hp : PinsLine line
    · have hurl : urlColumn (pinLine edit.2 (editLine (before.map Prod.snd) line)) =
          baseUrl url ++ '^' :: edit.2 := by
        simp [urlColumn, hyes (hpins.mpr hp)]
      rw [hurl, refersTo_append_iff (baseUrl_noMark url) (noMark_of_hex hlast)]
      simp [hp]
    · obtain ⟨e, es, hes⟩ := hno (mt hpins.mp hp)
      refine iff_of_false ?_ fun h => hp h.1
      rw [urlColumn, hes]
      exact not_refersTo_of_noMark (baseUrl_noMark url) hhash

/-! ### The assembled file -/

private theorem namesFeed_iff {vcs name : List Char} {line : Line} :
    namesFeed vcs name line = true ↔ ∃ rest, fields line = vcs :: name :: rest := by
  match hfields : fields line with
  | [] => simp [namesFeed, hfields]
  | [v] => simp [namesFeed, hfields]
  | v :: n :: rest => simp [namesFeed, hfields]

private theorem keeps_of_namesFeed {conf : List Line} (hproper : ProperUrls conf) {line : Line}
    (hline : line ∈ conf) {name : List Char} (hname : namesFeed srcGitFull name line = true) :
    ∃ base, base ≠ [] ∧ Keeps srcGitFull name base (PinsLine line) line := by
  have hbase := hproper line hline name hname
  obtain ⟨rest, hfields⟩ := namesFeed_iff.mp hname
  cases rest with
  | nil => exact absurd (by simp [urlColumn, hfields, baseUrl]) hbase
  | cons url rest =>
    have hurl : urlColumn line = url := by simp [urlColumn, hfields]
    exact ⟨baseUrl url, hurl ▸ hbase, ⟨url, rest, hfields, rfl⟩, Iff.rfl⟩

private theorem head_fields_append {s x v : List Char} {w : List Char} {rest : List (List Char)}
    (hs : fields s = v :: w :: rest) (hne : x ≠ []) (hx : ∀ c ∈ x, isBlank c = false) :
    (fields (s ++ x))[0]? = some v := by
  by_cases hends : EndsBlank s
  · rw [fields_append_of_endsBlank hends ⟨hne, hx⟩, hs]
    rfl
  · obtain ⟨ws, u, hlast, happend⟩ := fields_append_of_not_endsBlank hends hx
    rw [hs] at hlast
    rw [happend]
    cases ws with
    | nil => simp at hlast
    | cons y ys =>
      simp only [List.cons_append, List.cons.injEq] at hlast
      simp [hlast.1]

private theorem head_awkSetLine (awk : AwkComparison) (feed : List Char) {hash : List Char}
    (line : Line) (hhash : ∀ c ∈ hash, isBlank c = false) :
    (fields (awkSetLine awk feed hash line))[0]? = (fields line)[0]? := by
  have hx : ∀ c ∈ '^' :: hash.filter (· != '&'), isBlank c = false := by
    intro c hc
    rcases List.mem_cons.mp hc with rfl | hc
    · decide
    · exact hhash c (List.mem_of_mem_filter hc)
  match hfields : fields line with
  | [] => simp [awkSetLine, hfields]
  | [v] => simp [awkSetLine, hfields]
  | v :: w :: rest =>
    rw [awkSetLine]
    split
    · rw [pinLine, stripReference]
      split
      · exact head_fields_append hfields (by simp) hx
      · have hmem : v ∈ fields line := by simp [hfields]
        have hv := isWord_of_mem_fields hmem
        have hset : ∃ l, (v :: w :: rest).set 2 (baseUrl (urlColumn line)) = v :: w :: l :=
          ⟨_, rfl⟩
        obtain ⟨l, hl⟩ := hset
        rw [hfields, hl, List.intercalate_cons_cons, List.append_assoc, List.append_assoc,
          List.singleton_append, fields_append_cons _ _ rfl, hv.fields_eq]
        rfl
    · rw [hfields]

private theorem head_awkEditLine (awk : AwkComparison) {edits : Feeds} (line : Line)
    (hedits : ∀ entry ∈ edits, ∀ c ∈ entry.2, isBlank c = false) :
    (fields (awkEditLine awk edits line))[0]? = (fields line)[0]? := by
  induction edits generalizing line with
  | nil => rfl
  | cons entry edits ih =>
    exact (ih _ (fun e he => hedits e (List.mem_cons_of_mem _ he))).trans
      (head_awkSetLine awk entry.1 line (hedits entry List.mem_cons_self))

private theorem awkEditLine_short {awk : AwkComparison} {edits : Feeds} {line : Line}
    (hshort : (fields line)[1]? = none) : awkEditLine awk edits line = line := by
  induction edits with
  | nil => rfl
  | cons entry edits ih =>
    have hset : awkSetLine awk entry.1 entry.2 line = line := by simp [awkSetLine, hshort]
    rw [awkEditLine, List.foldl_cons, hset]
    exact ih

/-- The edits neither add nor remove a feed of the file. -/
private theorem namesFeed_awkEditLine {awk : AwkComparison} {conf : List Line}
    (hproper : ProperUrls conf) {line : Line} (hline : line ∈ conf) {edits : Feeds}
    (hedits : ∀ entry ∈ edits, ∀ c ∈ entry.2, isBlank c = false) (name : List Char) :
    namesFeed srcGitFull name (awkEditLine awk edits line) = namesFeed srcGitFull name line := by
  by_cases hkind : ∃ n rest, fields line = srcGitFull :: n :: rest
  · obtain ⟨n, rest, hfields⟩ := hkind
    obtain ⟨base, hbase, hkeeps⟩ :=
      keeps_of_namesFeed hproper hline (namesFeed_iff.mpr ⟨rest, hfields⟩)
    have hhashes : ∀ h ∈ (matching awk line edits).map Prod.snd, ∀ c ∈ h, isBlank c = false := by
      intro h hh
      obtain ⟨e, he, rfl⟩ := List.mem_map.mp hh
      exact hedits e (List.mem_of_mem_filter he)
    rw [awkEditLine_eq hkeeps hbase hedits]
    obtain ⟨url, rest', hfields', -⟩ := (hkeeps.editLine hbase hhashes).columns
    simp [namesFeed, hfields, hfields']
  · have hnot : namesFeed srcGitFull name line = false := by
      simpa using fun h => hkind ⟨name, namesFeed_iff.mp h⟩
    rw [hnot]
    by_contra hyes
    obtain ⟨rest, hfields⟩ := namesFeed_iff.mp (by simpa using hyes)
    have hhead := head_awkEditLine awk line hedits
    rw [hfields] at hhead
    match horig : fields line with
    | [] => simp [horig] at hhead
    | [v] =>
      rw [awkEditLine_short (by simp [horig]), horig] at hfields
      simp at hfields
    | v :: w :: rest' =>
      obtain rfl : srcGitFull = v := by simpa [horig] using hhead
      exact hkind ⟨w, rest', horig⟩

/-- A search only depends on the predicate at the elements of the list. -/
theorem find?_congr {α : Type*} {p q : α → Bool} {l : List α} (h : ∀ x ∈ l, p x = q x) :
    l.find? p = l.find? q := by
  induction l with
  | nil => rfl
  | cons x l ih =>
    rw [List.find?_cons, List.find?_cons, h x List.mem_cons_self,
      ih fun y hy => h y (List.mem_cons_of_mem _ hy)]

private theorem find?_checkoutConf (conf : List Line) (boardConf : Option (List Line))
    (name : List Char) :
    (checkoutConf conf boardConf).find? (namesFeed srcGitFull name) =
      (conf.find? (namesFeed srcGitFull name)).or
        (boardConf.bind fun file => file.find? (namesFeed srcGitFull name)) := by
  cases boardConf with
  | none => simp [checkoutConf]
  | some file => simp [checkoutConf, List.find?_append, namesFeed]

private theorem hashLoop_primary {mismatch : Board → List Char → List Char → Mismatch}
    {hash : Board → List Char} (hhash : ∀ b, hash b = [] ∨ IsHash (hash b)) (bs : List Board)
    {s : List Char × List Mismatch} (hs : s.1 = [] ∨ IsHash s.1) :
    (bs.foldl (hashStep mismatch hash) s).1 = [] ∨
      IsHash (bs.foldl (hashStep mismatch hash) s).1 := by
  induction bs generalizing s with
  | nil => exact hs
  | cons b bs ih =>
    refine ih ?_
    unfold hashStep pickPrimary
    split
    · exact hhash b
    · exact hs

private theorem hex_of_empty_or_hash {h : List Char} (hh : h = [] ∨ IsHash h) :
    ∀ c ∈ h, c ∈ hexDigits := by
  rcases hh with rfl | hh
  · simp
  · exact hh.2

/-- Which edit may come last among those that match. -/
theorem forall_order_iff (awk : AwkComparison) (line : Line) (early entries : Feeds)
    (P : Option (List Char × List Char) → Prop) :
    (∀ order : Feeds, order.Perm entries → P (matching awk line (early ++ order)).getLast?) ↔
      (matching awk line entries = [] → P (matching awk line early).getLast?) ∧
        ∀ edit ∈ matching awk line entries, P (some edit) := by
  have happend (order : Feeds) : matching awk line (early ++ order) =
      matching awk line early ++ matching awk line order := List.filter_append ..
  constructor
  · intro hall
    refine ⟨fun hnil => ?_, fun edit hedit => ?_⟩
    · simpa [happend, hnil] using hall entries (.refl _)
    · -- The order in which this edit comes last.
      obtain ⟨hmem, hmatches⟩ := List.mem_filter.mp hedit
      have hperm : (entries.erase edit ++ [edit]).Perm entries :=
        (List.perm_append_singleton edit _).trans (List.perm_cons_erase hmem).symm
      have hsplit : matching awk line (entries.erase edit ++ [edit]) =
          matching awk line (entries.erase edit) ++ [edit] := by
        rw [matching, List.filter_append]
        exact congrArg _ (List.filter_cons_of_pos hmatches)
      have hlast := hall _ hperm
      rwa [happend, hsplit, ← List.append_assoc, List.getLast?_concat] at hlast
  · rintro ⟨hnil, hall⟩ order horder
    have hperm : (matching awk line order).Perm (matching awk line entries) := horder.filter _
    rcases (matching awk line order).eq_nil_or_concat' with hempty | ⟨before, edit, hsplit⟩
    · rw [hempty] at hperm
      simpa [happend, hempty] using hnil hperm.symm.eq_nil
    · have hedit : edit ∈ matching awk line order := by simp [hsplit]
      rw [happend, hsplit, ← List.append_assoc, List.getLast?_concat]
      exact hall edit (hperm.mem_iff.mp hedit)

/-- For one board and one feed: in whatever order the entries are set, the edited file
with the file of the board resolves the feed to the commit exactly when a release
pins it. -/
private theorem resolves_edited_iff {awk : AwkComparison} {conf : List Line}
    (hproper : ProperUrls conf) {feed hash : List Char} (hhash : IsHash hash)
    {early entries : Feeds} (hearly : ∀ edit ∈ early, ∀ c ∈ edit.2, c ∈ hexDigits)
    (hentries : ∀ edit ∈ entries, ∀ c ∈ edit.2, c ∈ hexDigits)
    (boardConf : Option (List Line)) :
    (∀ order : Feeds, order.Perm entries →
      Resolves (checkoutConf (conf.map (awkEditLine awk (early ++ order))) boardConf) feed hash) ↔
      PinnedByRelease awk early entries conf boardConf feed hash := by
  have hhex {order : Feeds} (horder : order.Perm entries) :
      ∀ edit ∈ early ++ order, ∀ c ∈ edit.2, c ∈ hexDigits := by
    intro edit hedit
    rcases List.mem_append.mp hedit with h | h
    · exact hearly edit h
    · exact hentries edit (horder.mem_iff.mp h)
  have hfind {order : Feeds} (horder : order.Perm entries) :
      (conf.map (awkEditLine awk (early ++ order))).find? (namesFeed srcGitFull feed) =
        (conf.find? (namesFeed srcGitFull feed)).map (awkEditLine awk (early ++ order)) := by
    rw [List.find?_map]
    refine congrArg _ (find?_congr fun line hline => ?_)
    exact namesFeed_awkEditLine hproper hline
      (fun e he => noBlank_of_hex (hhex horder e he)) feed
  rw [PinnedByRelease]
  cases hline : conf.find? (namesFeed srcGitFull feed) with
  | none =>
    have hresolves {order : Feeds} (horder : order.Perm entries) :
        Resolves (checkoutConf (conf.map (awkEditLine awk (early ++ order))) boardConf) feed hash ↔
          ∃ file ∈ boardConf, Resolves file feed hash := by
      rw [Resolves, getFeed, find?_checkoutConf, hfind horder, hline]
      cases boardConf with
      | none => simp
      | some file => simp [Resolves, getFeed]
    exact ⟨fun hall => (hresolves (.refl _)).mp (hall _ (.refl _)),
      fun hfile order horder => (hresolves horder).mpr hfile⟩
  | some line =>
    obtain ⟨base, hbase, hkeeps⟩ := keeps_of_namesFeed hproper (List.mem_of_find?_eq_some hline)
      (List.find?_some hline)
    refine Iff.trans (forall₂_congr fun order horder => ?_)
      (forall_order_iff awk line early entries (PinnedLast line hash))
    rw [Resolves, getFeed, find?_checkoutConf, hfind horder, hline]
    simpa using refersTo_awkEditLine_iff hkeeps hbase (hhex horder) hhash

/-- The two edits that `release` makes before those of `FEEDS`. -/
def earlyEdits (files : GitHashFiles) : Feeds :=
  [("openwrt".toList, (owrtHash files).1), ("updater-lists".toList, (listsHash files).1)]

/-- Where the feed and the names of `FEEDS` are plain and the feed has one entry, its
line in `feeds.conf` only has to be one that is pinned. -/
theorem pinnedByRelease_of_plain {awk : AwkComparison} {early entries : Feeds} {conf : List Line}
    {boardConf : Option (List Line)} {feed hash : List Char} {line : Line}
    (hline : conf.find? (namesFeed srcGitFull feed) = some line)
    (hplain : ∀ edit ∈ entries, PlainName edit.1) (hentry : (feed, hash) ∈ entries)
    (hnodup : (entries.map Prod.fst).Nodup) :
    PinnedByRelease awk early entries conf boardConf feed hash ↔ PinsLine line := by
  have hsecond : (fields line)[1]? = some feed := by
    obtain ⟨rest, hfields⟩ := namesFeed_iff.mp (List.find?_some hline)
    simp [hfields]
  have hmatches (edit : List Char × List Char) :
      edit ∈ matching awk line entries ↔ edit ∈ entries ∧ feed = edit.1 := by
    rw [matching, List.mem_filter, hsecond]
    refine and_congr_right fun hedit => ?_
    simp [awk.equal_plain _ _ (hplain edit hedit)]
  have hown : (feed, hash) ∈ matching awk line entries := (hmatches _).mpr ⟨hentry, rfl⟩
  simp only [PinnedByRelease, hline, PinnedLast]
  constructor
  · rintro ⟨-, hall⟩
    exact (hall _ hown).1
  · intro hpins
    refine ⟨fun hnil => absurd hown (by simp [hnil]), fun edit hedit => ⟨hpins, ?_⟩⟩
    obtain ⟨hmem, hname⟩ := (hmatches edit).mp hedit
    have hsame := List.inj_on_of_nodup_map hnodup hmem hentry hname.symm
    rw [hsame]

/-! ### A feed of one board -/

/-- A build in which only the primary board has the feed `video`. -/
def videoBuild : GitHashFiles where
  packages
    | .omniaNg => tbLine ++ [" * openwrt: 3f".toList, " * feeds/luci: 5e".toList,
        " * feeds/video: 6b".toList]
    | _ => tbLine ++ [" * openwrt: 3f".toList, " * feeds/luci: 5e".toList]
  lists _ := tbLine ++ [" * updater-lists: 7d".toList]

/-- The array that `feeds` collects from the build. -/
def videoFeeds : Feeds := [("luci".toList, "5e".toList), ("video".toList, "6b".toList)]

/-- A feed line for each of the two feeds. -/
def luciLine : Line := "src-git-full luci https://openwrt.turris.cz/project/luci.git^0e".toList

/-- The line of the feed `video`, which follows a branch. -/
def videoLine : Line :=
  "src-git-full video https://openwrt.turris.cz/feed/video.git;openwrt-24.10".toList

private theorem videoBuild_genuine : Genuine videoBuild where
  hashes b := by cases b <;> decide
  openwrt b := by cases b <;> decide
  updaterLists b := by cases b <;> decide

private theorem videoBuild_noMismatch : NoMismatch videoBuild videoFeeds where
  tb := by decide
  openwrt := by decide
  updaterLists := by decide
  feeds := by decide

private theorem properUrls_of_forall {conf : List Line}
    (hconf : ∀ line ∈ conf, baseUrl (urlColumn line) ≠ []) : ProperUrls conf :=
  fun line hline _ _ => hconf line hline

end TurrisBuild.Release
