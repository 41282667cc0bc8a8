import TurrisBuild.Hook.ReleaseOrder

/-!
# The pushes that the hook lets through

The other side of the hook: which harmless pushes it accepts. A push that leaves
the release branches in their order should pass, and so should tags, whatever
else is pushed with them.
-/

namespace TurrisBuild.Hook

open History

variable {C : Type*} [PartialOrder C]

/-! ### Release branches -/

/-- The push moves release branches only, with the remote-tracking `hbd` up to
date. -/
structure Push.MovesReleases (h : Heads C) (p : Push C) : Prop where
  nonempty : p.lines ≠ []
  release : ∀ line ∈ p.lines,
    line.remoteRef = hbkRef ∨ line.remoteRef = hblRef ∨ line.remoteRef = hbdRef
  tracking : p.repo.revParse (trackingName p.remoteName) = some h.hbd

variable [DecidableLE C]

private theorem readLine_release (repo : Repository C) (pushed : Pushed C) {line : PushLine C}
    (hline : line.remoteRef = hbkRef ∨ line.remoteRef = hblRef ∨ line.remoteRef = hbdRef) :
    ∃ pushed', readLine repo pushed line = .ok pushed' := by
  unfold readLine
  cases line.localSha1 with
  | zero => exact ⟨pushed, rfl⟩
  | commit c =>
    have hk : classify (stripHeads hbkRef) = .hbk := by decide
    have hl : classify (stripHeads hblRef) = .hbl := by decide
    have hd : classify (stripHeads hbdRef) = .hbd := by decide
    rcases hline with href | href | href
    · exact ⟨_, by rw [href, hk]⟩
    · exact ⟨_, by rw [href, hl]⟩
    · exact ⟨_, by rw [href, hd]⟩

/-- The loop refuses no line for a release branch. -/
theorem readLines_release (repo : Repository C) (pushed : Pushed C) {lines : List (PushLine C)}
    (hlines : ∀ line ∈ lines,
      line.remoteRef = hbkRef ∨ line.remoteRef = hblRef ∨ line.remoteRef = hbdRef) :
    ∃ pushed', readLines repo pushed lines = .ok pushed' := by
  induction lines generalizing pushed with
  | nil => exact ⟨pushed, rfl⟩
  | cons line lines ih =>
    obtain ⟨next, hnext⟩ := readLine_release repo pushed (hlines line List.mem_cons_self)
    obtain ⟨pushed', hrest⟩ := ih next fun l hl => hlines l (List.mem_cons_of_mem _ hl)
    exact ⟨pushed', by simpa only [readLines, hnext] using hrest⟩

/-- What the checks decide about a push of release branches to the server. -/
theorem prePush_release {h : Heads C} {p : Push C} (hp : p.MovesReleases h)
    (hserver : guardsUrl p.remoteUrl = true) :
    prePush p.repo p.remoteName p.remoteUrl p.lines = .ok () ↔
      (∀ k ∈ p.target hbkRef, (p.target hblRef).isSome ∧
        k ≤ (p.target hbdRef).getD h.hbd) ∧
      ∀ l ∈ p.target hblRef, l ≤ (p.target hbdRef).getD h.hbd := by
  have hfull : ∀ line ∈ p.lines, "refs/".toList <+: line.remoteRef := by
    intro line hline
    rcases hp.release line hline with href | href | href <;> rw [href] <;> decide
  have hor (c : C) : isAncestor (some c) ((p.target hbdRef).or (some h.hbd)) = true ↔
      c ≤ (p.target hbdRef).getD h.hbd := by
    cases p.target hbdRef <;> simp
  obtain ⟨pushed, hread⟩ := readLines_release p.repo Pushed.empty hp.release
  have hpushed : pushed = ⟨p.target hbkRef, p.target hblRef, p.target hbdRef⟩ :=
    readLines_ok hfull hread
  have hk := checkHbk_ok_iff (some h.hbd) pushed
  have hl := checkHbl_ok_iff (some h.hbd) pushed
  simp only [hpushed, hor] at hk hl
  simp only [prePush, hserver, if_true, hread, hp.tracking, hpushed]
  rw [← hk, ← hl]
  cases checkHbk (some h.hbd) ⟨p.target hbkRef, p.target hblRef, p.target hbdRef⟩ with
  | error refusal => simp
  | ok u => simp

omit [DecidableLE C] in
/-- The release branches have full names. -/
theorem Push.MovesReleases.fullName {h : Heads C} {p : Push C} (hp : p.MovesReleases h) :
    ∀ line ∈ p.lines, line.FullName := by
  intro line hline
  unfold PushLine.FullName
  rcases hp.release line hline with href | href | href <;> rw [href] <;> decide

/-- **Admission of release branches.** A push that moves release branches and
leaves them in their order, with local references typed without a blank, passes
exactly when it does not move `hbk` without `hbl`, or does not go to the guarded
server. -/
theorem admits_ordered_iff {h : Heads C} {p : Push C} (hp : p.MovesReleases h)
    (hordered : (h.push p).Ordered) (hfree : p.BlankFree) :
    p.verdict = .ok () ↔
      (guardsUrl p.remoteUrl = true → (p.target hbkRef).isSome → (p.target hblRef).isSome) := by
  rw [Push.verdict, hook_eq_prePush p.names hp.fullName hfree]
  cases hserver : guardsUrl p.remoteUrl with
  | false => simp [prePush, hserver]
  | true =>
    rw [prePush_release hp hserver]
    rw [Heads.push_eq] at hordered
    obtain ⟨hkl, hld⟩ := hordered
    constructor
    · rintro ⟨hhbk, -⟩ - hsome
      obtain ⟨k, hk⟩ := Option.isSome_iff_exists.mp hsome
      exact (hhbk k hk).1
    · intro hboth
      refine ⟨fun k hk => ?_, fun l hl => ?_⟩
      · rw [Option.mem_def] at hk
        simp only [hk, Option.getD_some] at hkl
        exact ⟨hboth rfl (by simp [hk]), hkl.trans hld⟩
      · rw [Option.mem_def] at hl
        simpa only [hl, Option.getD_some] using hld

private theorem diamondPush_movesReleases (hbk hbl hbd : Diamond) :
    (diamondPush hbk hbl hbd).MovesReleases diamondHeads where
  nonempty := by simp [diamondPush]
  release := by simp [diamondPush, diamondLine]
  tracking := rfl

/-- A push of all three branches in their order passes. -/
theorem admits_diamond :
    (diamondHeads.push (diamondPush .left .merge .merge)).Ordered ∧
    (diamondPush .left .merge .merge).verdict = .ok () := by
  have hordered : (diamondHeads.push (diamondPush .left .merge .merge)).Ordered := by decide
  refine ⟨hordered, (admits_ordered_iff (diamondPush_movesReleases _ _ _) hordered
    (diamondPush_blankFree _ _ _)).mpr ?_⟩
  decide

/-- A push of `hbk` alone to a commit that `hbl` and `hbd` contain already. -/
def hbkAlonePush : Push Diamond where
  repo := Repository.ofInf (diamondParse fun _ => .merge)
  name := diamondName
  names := diamondNames _
  remoteName := "origin".toList
  remoteUrl := "git@gitlab.nic.cz:turris/os/build.git".toList
  lines := [diamondLine hbkRef .left]

/-- It keeps the branches in their order and is refused, since `hbk` is compared
with an empty name. -/
theorem hbk_alone_refused :
    hbkAlonePush.MovesReleases ⟨.base, .merge, .merge⟩ ∧
    (Heads.push ⟨.base, .merge, .merge⟩ hbkAlonePush).Ordered ∧
    hbkAlonePush.verdict = .error .hbkNotInHbl := by
  have hmoves : hbkAlonePush.MovesReleases ⟨.base, .merge, .merge⟩ :=
    ⟨by simp [hbkAlonePush], by simp [hbkAlonePush, diamondLine], rfl⟩
  have hfree : hbkAlonePush.BlankFree := by
    simp only [Push.BlankFree, hbkAlonePush, List.mem_singleton, forall_eq]
    exact (by decide : OneWord hbkRef)
  refine ⟨hmoves, by decide, ?_⟩
  rw [Push.verdict, hook_eq_prePush hbkAlonePush.names hmoves.fullName hfree]
  rfl

/-! ### Tags -/

/-- Some lines with others inserted among them, each list in its own order. -/
inductive Inserted {α : Type*} : List α → List α → List α → Prop
  | nil : Inserted [] [] []
  | keep {xs ys zs : List α} (x : α) (h : Inserted xs ys zs) : Inserted (x :: xs) ys (x :: zs)
  | insert {xs ys zs : List α} (y : α) (h : Inserted xs ys zs) : Inserted xs (y :: ys) (y :: zs)

/-- The original lines are all there. -/
theorem Inserted.mem_of_left {α : Type*} {xs ys zs : List α} (h : Inserted xs ys zs) {x : α}
    (hx : x ∈ xs) : x ∈ zs := by
  induction h with
  | nil => exact hx
  | keep y _ ih =>
    rcases List.mem_cons.mp hx with rfl | hx
    · exact List.mem_cons_self
    · exact List.mem_cons_of_mem _ (ih hx)
  | insert y _ ih => exact List.mem_cons_of_mem _ (ih hx)

/-- Inserting nothing changes nothing. -/
theorem Inserted.of_nil {α : Type*} (xs : List α) : Inserted xs [] xs := by
  induction xs with
  | nil => exact .nil
  | cons x xs ih => exact .keep x ih

/-- The line is for a tag. -/
def PushLine.IsTag (line : PushLine C) : Prop := "refs/tags/".toList <+: line.remoteRef

/-- The line creates what it names on the server. -/
def PushLine.Creates (line : PushLine C) : Prop :=
  line.localSha1 ≠ .zero ∧ line.remoteSha1 = .zero

omit [PartialOrder C] [DecidableLE C] in
/-- No pattern of the hook covers the name of a tag. -/
theorem classify_tag {line : PushLine C} (htag : line.IsTag) :
    classify (stripHeads line.remoteRef) = .other := by
  obtain ⟨name, hname⟩ := htag
  rw [← hname]
  rfl

/-- A line for a tag changes nothing, and is refused if it creates the tag. -/
theorem readLine_tag (repo : Repository C) (pushed : Pushed C) {line : PushLine C}
    (htag : line.IsTag) :
    (¬line.Creates → readLine repo pushed line = .ok pushed) ∧
      (line.Creates → ∃ refusal, readLine repo pushed line = .error refusal) := by
  unfold readLine PushLine.Creates
  cases line.localSha1 with
  | zero => simp
  | commit c =>
    rw [classify_tag htag]
    cases line.remoteSha1 <;> simp

private theorem readLines_inserted (repo : Repository C) {lines tags merged : List (PushLine C)}
    (hmerged : Inserted lines tags merged)
    (htags : ∀ line ∈ tags, line.IsTag ∧ ¬line.Creates) (pushed : Pushed C) :
    readLines repo pushed merged = readLines repo pushed lines := by
  induction hmerged generalizing pushed with
  | nil => rfl
  | keep line _ ih =>
    unfold readLines
    cases readLine repo pushed line with
    | error refusal => rfl
    | ok next => exact ih htags next
  | insert tag _ ih =>
    obtain ⟨htag, hold⟩ := htags tag List.mem_cons_self
    rw [readLines, (readLine_tag repo pushed htag).1 hold]
    exact ih (fun line hline => htags line (List.mem_cons_of_mem _ hline)) pushed

private theorem readLines_creates (repo : Repository C)
    {lines tags merged : List (PushLine C)} (hmerged : Inserted lines tags merged)
    (htags : ∀ line ∈ tags, line.IsTag) (hnew : ∃ line ∈ tags, line.Creates)
    (pushed : Pushed C) : ∃ refusal, readLines repo pushed merged = .error refusal := by
  induction hmerged generalizing pushed with
  | nil => simp at hnew
  | keep line _ ih =>
    unfold readLines
    cases readLine repo pushed line with
    | error refusal => exact ⟨refusal, rfl⟩
    | ok next => exact ih htags hnew next
  | insert tag _ ih =>
    obtain ⟨hold, hrefused⟩ := readLine_tag repo pushed (htags tag List.mem_cons_self)
    by_cases hcreates : tag.Creates
    · obtain ⟨refusal, hrefusal⟩ := hrefused hcreates
      exact ⟨refusal, by simp only [readLines, hrefusal]⟩
    · simp only [readLines, hold hcreates]
      refine ih (fun line hline => htags line (List.mem_cons_of_mem _ hline)) ?_ pushed
      simpa [hcreates] using hnew

/-- The line is one that the loop goes past: a removal, a release branch, a topic
branch with the right merge bases, or another reference that the server has. -/
def PushLine.Admissible (repo : Repository C) (line : PushLine C) : Prop :=
  line.localSha1 = .zero ∨
    match classify (stripHeads line.remoteRef) with
    | .topic base otherA otherB => compareAncestors repo line.localSha1 base otherA otherB = true
    | .other => line.remoteSha1 ≠ .zero
    | _ => True

/-- All lines are of that kind, a pushed `hbk` comes with a pushed `hbl`, and both
lie in the pushed `hbd` or, without one, in the remote-tracking one. -/
structure Admissible (repo : Repository C) (remoteName : List Char) (lines : List (PushLine C)) :
    Prop where
  admissible : ∀ line ∈ lines, line.Admissible repo
  hbk : ∀ k ∈ lines.foldl (PushLine.record hbkRef) none,
    (lines.foldl (PushLine.record hblRef) none).isSome ∧
      isAncestor (some k) ((lines.foldl (PushLine.record hbdRef) none).or
        (repo.revParse (trackingName remoteName)))
  hbl : ∀ l ∈ lines.foldl (PushLine.record hblRef) none,
    isAncestor (some l) ((lines.foldl (PushLine.record hbdRef) none).or
      (repo.revParse (trackingName remoteName)))

private theorem readLine_admissible_iff (repo : Repository C) (pushed : Pushed C)
    (line : PushLine C) :
    (∃ pushed', readLine repo pushed line = .ok pushed') ↔ line.Admissible repo := by
  unfold readLine PushLine.Admissible
  cases line.localSha1 with
  | zero => simp
  | commit c =>
    simp only [reduceCtorEq, false_or]
    cases classify (stripHeads line.remoteRef) with
    | topic base otherA otherB =>
      simp only
      cases compareAncestors repo (.commit c) base otherA otherB <;> simp
    | other => cases line.remoteSha1 <;> simp
    | _ => simp

private theorem readLines_admissible_iff (repo : Repository C) (pushed : Pushed C)
    (lines : List (PushLine C)) :
    (∃ pushed', readLines repo pushed lines = .ok pushed') ↔
      ∀ line ∈ lines, line.Admissible repo := by
  induction lines generalizing pushed with
  | nil => simp [readLines]
  | cons line lines ih =>
    rw [List.forall_mem_cons, ← readLine_admissible_iff repo pushed line]
    unfold readLines
    cases readLine repo pushed line with
    | error refusal => simp
    | ok next => simp [ih next]

/-- The pushes to its server that the hook lets through. -/
theorem prePush_ok_iff {repo : Repository C} {remoteName remoteUrl : List Char}
    {lines : List (PushLine C)} (hserver : guardsUrl remoteUrl = true)
    (hfull : ∀ line ∈ lines, line.FullName) :
    prePush repo remoteName remoteUrl lines = .ok () ↔ Admissible repo remoteName lines := by
  have hfull' : ∀ line ∈ lines, "refs/".toList <+: line.remoteRef :=
    fun line hline => (hfull line hline).1
  constructor
  · intro hok
    obtain ⟨pushed, hread, hhbk, hhbl⟩ := prePush_ok hserver hok
    have hpushed := readLines_ok hfull' hread
    rw [hpushed] at hhbk hhbl
    exact ⟨(readLines_admissible_iff repo _ lines).mp ⟨pushed, hread⟩,
      (checkHbk_ok_iff _ _).mp hhbk, (checkHbl_ok_iff _ _).mp hhbl⟩
  · rintro ⟨hlines, hhbk, hhbl⟩
    obtain ⟨pushed, hread⟩ := (readLines_admissible_iff repo Pushed.empty lines).mpr hlines
    have hpushed := readLines_ok hfull' hread
    subst hpushed
    have hk := (checkHbk_ok_iff (repo.revParse (trackingName remoteName)) ⟨_, _, _⟩).mpr hhbk
    simp only [prePush, hserver, if_true, hread]
    simp only [Pushed.empty] at hk ⊢
    rw [hk]
    exact (checkHbl_ok_iff _ _).mpr hhbl

/-- **Tags are neutral.** Lines for tags inserted anywhere into a push leave the
verdict as it is exactly when none of them creates a tag, or the push does not go
to the guarded server, or is not admissible without them. -/
theorem tags_neutral_iff {repo : Repository C} {name : C → List Char}
    (hnames : ObjectNames name repo.revParse) (remoteName remoteUrl : List Char)
    {lines tags merged : List (PushLine C)} (hmerged : Inserted lines tags merged)
    (htags : ∀ line ∈ tags, line.IsTag) (hfull : ∀ line ∈ merged, line.FullName)
    (hfree : ∀ line ∈ merged, line.BlankFree) :
    (hook repo remoteName remoteUrl (hookInput name merged) = .ok () ↔
      hook repo remoteName remoteUrl (hookInput name lines) = .ok ()) ↔
      (guardsUrl remoteUrl = true → Admissible repo remoteName lines →
        ∀ line ∈ tags, ¬line.Creates) := by
  have hfull' : ∀ line ∈ lines, line.FullName := fun line hline =>
    hfull line (hmerged.mem_of_left hline)
  rw [hook_eq_prePush hnames hfull hfree,
    hook_eq_prePush hnames hfull' fun line hline => hfree line (hmerged.mem_of_left hline)]
  cases hserver : guardsUrl remoteUrl with
  | false => simp [prePush, hserver]
  | true =>
    rw [prePush_ok_iff hserver hfull', forall_prop_of_true rfl]
    by_cases hnew : ∃ line ∈ tags, line.Creates
    · -- A refused tag ends the loop, so only a push refused anyway keeps its verdict.
      obtain ⟨refusal, hrefusal⟩ := readLines_creates repo hmerged htags hnew .empty
      have hrefused : prePush repo remoteName remoteUrl merged ≠ .ok () := by
        simp [prePush, hserver, hrefusal]
      obtain ⟨tag, htag, hcreates⟩ := hnew
      constructor
      · intro hneutral hadmissible
        exact absurd (hneutral.mpr hadmissible) hrefused
      · intro hold
        refine ⟨fun hok => absurd hok hrefused, fun hadmissible => ?_⟩
        exact absurd hcreates (hold hadmissible tag htag)
    · have hold : ∀ line ∈ tags, ¬line.Creates := fun line hline hcreates =>
        hnew ⟨line, hline, hcreates⟩
      have hread := readLines_inserted repo hmerged
        (fun line hline => ⟨htags line hline, hold line hline⟩) .empty
      rw [← prePush_ok_iff hserver hfull']
      simp only [prePush, hread]
      exact iff_of_true trivial fun _ => hold

/-- A line for the tag of a release, which is new or was at another commit. -/
def tagLine (old : Sha Diamond) : PushLine Diamond :=
  ⟨"refs/tags/v7.0.0".toList, .commit .merge, "refs/tags/v7.0.0".toList, old⟩

private theorem tagLine_isTag (old : Sha Diamond) : ∀ line ∈ [tagLine old], line.IsTag := by
  simp only [List.mem_singleton, forall_eq]
  exact (by decide : "refs/tags/".toList <+: "refs/tags/v7.0.0".toList)

private theorem tagLine_fullName (old : Sha Diamond) : (tagLine old).FullName :=
  (by decide : "refs/".toList <+: "refs/tags/v7.0.0".toList ∧ OneWord "refs/tags/v7.0.0".toList)

private theorem tagLine_blankFree (old : Sha Diamond) : (tagLine old).BlankFree :=
  (by decide : OneWord "refs/tags/v7.0.0".toList)

/-- A tag that is moved passes with the release branches. -/
theorem moved_tag_neutral :
    hook diamondRepo "origin".toList "git@gitlab.nic.cz:turris/os/build.git".toList
      (hookInput diamondName
        (tagLine (.commit .left) :: (diamondPush .left .merge .merge).lines)) = .ok () ↔
    hook diamondRepo "origin".toList "git@gitlab.nic.cz:turris/os/build.git".toList
      (hookInput diamondName (diamondPush .left .merge .merge).lines) = .ok () := by
  have hold : ∀ line ∈ [tagLine (.commit .left)], ¬line.Creates := by
    intro line hline hcreates
    rw [List.mem_singleton.mp hline] at hcreates
    exact absurd hcreates.2 (by decide)
  refine (tags_neutral_iff (diamondNames _) "origin".toList
    "git@gitlab.nic.cz:turris/os/build.git".toList (.insert _ (.of_nil _))
    (tagLine_isTag (.commit .left)) ?_ ?_).mpr fun _ _ => hold
  · exact List.forall_mem_cons.mpr ⟨tagLine_fullName _, diamondPush_fullName _ _ _⟩
  · exact List.forall_mem_cons.mpr ⟨tagLine_blankFree _, diamondPush_blankFree _ _ _⟩

/-- The tag of a new release is refused as a branch of a wrong name. -/
theorem new_tag_refused :
    (tagLine .zero).IsTag ∧
    hook diamondRepo "origin".toList "git@gitlab.nic.cz:turris/os/build.git".toList
      (hookInput diamondName []) = .ok () ∧
    hook diamondRepo "origin".toList "git@gitlab.nic.cz:turris/os/build.git".toList
      (hookInput diamondName [tagLine .zero]) =
        .error (.newBranch "refs/tags/v7.0.0".toList) := by
  refine ⟨tagLine_isTag .zero _ List.mem_cons_self, rfl, ?_⟩
  rw [diamondRepo, hook_eq_prePush (diamondNames _) (by simpa using tagLine_fullName .zero)
    (by simpa using tagLine_blankFree .zero)]
  rfl

end TurrisBuild.Hook
