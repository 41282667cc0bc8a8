import Mathlib.Data.Bool.AllAny
import Mathlib.Order.Defs.PartialOrder
import TurrisBuild.Lib.Git
import TurrisBuild.Lib.Runs
import TurrisBuild.Release.FeedsConf

/-!
# Checking out a feed

`git_checkout` of `helpers/generate_common.sh` brings a directory to the revision
that a feed url names, from the remote itself or from a local mirror of it. The
fetch depends on the mirror and on the kind of reference, and the checkout looks
the bare name up in a clone in which earlier calls have left branches and tags.
-/

namespace TurrisBuild.GitCheckout

open Git Release

/-- A url without a mark for a reference. -/
abbrev PlainUrl := { url : List Char // ∀ c ∈ url, isRefMark c = false }

/-- The hashes of commits as they are written. -/
structure Hashes (C : Type*) where
  text : C → List Char
  read : List Char → Option C
  read_text : ∀ c, read (text c) = some c
  text_noMark : ∀ c, ∀ x ∈ text c, isRefMark x = false
  read_head : read "HEAD".toList = none
  read_fetchHead : read "FETCH_HEAD".toList = none

variable {C : Type*} {hs : Hashes C}

/-- A name that a branch or tag can have and a feed url can give: no mark, no hash,
and none of git's own names for a commit. -/
def IsRefName (hs : Hashes C) (r : List Char) : Prop :=
  (∀ c ∈ r, isRefMark c = false) ∧ hs.read r = none ∧ r ≠ "HEAD".toList ∧ r ≠ "FETCH_HEAD".toList

/-- What follows the address in a feed url. -/
inductive Reference (hs : Hashes C)
  | default
  | branch (r : { r // IsRefName hs r })
  | revision (r : { r // IsRefName hs r })
  | commit (c : C)

/-- The feed url with an address and a reference. -/
def Reference.url (address : List Char) : Reference hs → List Char
  | .default => address
  | .branch r => address ++ ';' :: r.1
  | .revision r => address ++ '^' :: r.1
  | .commit c => address ++ '^' :: hs.text c

/-- The name that a call checks out. -/
def Reference.name : Reference hs → List Char
  | .default => "FETCH_HEAD".toList
  | .branch r => r.1
  | .revision r => r.1
  | .commit c => hs.text c

private theorem name_noMark {reference : Reference hs} (hdefault : reference ≠ .default) :
    ∀ c ∈ reference.name, isRefMark c = false := by
  cases reference with
  | default => exact absurd rfl hdefault
  | branch r => exact r.2.1
  | revision r => exact r.2.1
  | commit c => exact hs.text_noMark c

private theorem Hashes.text_ne (hs : Hashes C) (c : C) {name : List Char}
    (hname : hs.read name = none) : hs.text c ≠ name := by
  rintro rfl
  rw [hs.read_text] at hname
  cases hname

private theorem url_eq_mark {reference : Reference hs} (hdefault : reference ≠ .default) :
    ∃ mark, isRefMark mark = true ∧
      (mark = ';' ↔ ∃ r, reference = .branch r) ∧
      ∀ address, reference.url address = address ++ mark :: reference.name := by
  cases reference with
  | default => exact absurd rfl hdefault
  | branch r => exact ⟨';', by decide, by simp, fun _ => rfl⟩
  | revision r => exact ⟨'^', by decide, by simp, fun _ => rfl⟩
  | commit c => exact ⟨'^', by decide, by simp, fun _ => rfl⟩

/-- The address of a feed url. -/
theorem feedUrl_url (reference : Reference hs) (address : PlainUrl) :
    feedUrl (reference.url address.1) = address.1 := by
  by_cases hdefault : reference = .default
  · subst hdefault
    exact feedUrl_plain address.2
  · obtain ⟨mark, hmark, -, hurl⟩ := url_eq_mark hdefault
    rw [hurl]
    exact feedUrl_mark hmark (name_noMark hdefault)

/-- The reference of a feed url. -/
theorem feedRef_url (reference : Reference hs) (hdefault : reference ≠ .default)
    (address : PlainUrl) (fetch : Bool) :
    feedRef (reference.url address.1) fetch = reference.name := by
  obtain ⟨mark, hmark, -, hurl⟩ := url_eq_mark hdefault
  rw [hurl]
  exact feedRef_mark hmark (name_noMark hdefault) fetch

/-- Without a reference the name is git's own. -/
theorem feedRef_default (address : PlainUrl) (fetch : Bool) :
    feedRef ((Reference.default : Reference hs).url address.1) fetch =
      if fetch then "FETCH_HEAD".toList else "HEAD".toList := by
  rw [feedRef, Reference.url, any_plain address.2, if_neg Bool.false_ne_true]

/-- Only a branch is fetched by its name without a mirror. -/
theorem feedRefIsBranch_url (reference : Reference hs) (address : PlainUrl) :
    feedRefIsBranch (reference.url address.1) = true ↔ ∃ r, reference = .branch r := by
  by_cases hdefault : reference = .default
  · subst hdefault
    have hplain : ';' ∉ address.1 := fun hmem => absurd (address.2 _ hmem) (by decide)
    simp [feedRefIsBranch, Reference.url, hplain]
  · obtain ⟨mark, -, hbranch, hurl⟩ := url_eq_mark hdefault
    rw [hurl, feedRefIsBranch_mark address.2 (name_noMark hdefault), decide_eq_true_iff, hbranch]

/-- The remote at its address, the mirror of it and the clone in the output directory. -/
structure World (C : Type*) where
  address : PlainUrl
  remote : Source (List Char) C
  mirror : Option (Source (List Char) C)
  clone : Option (Clone (List Char) C)

/-- One call of `git_checkout`. -/
structure Request (hs : Hashes C) where
  reference : Reference hs
  /-- The url of the mirror, `file://$GIT_MIRROR/$name`, if there is a `GIT_MIRROR`. -/
  gitMirror : Option PlainUrl
  /-- `set_git_mirrors_updated` was called, or the shell has updated this mirror. -/
  mirrorsUpdated : Bool

/-- `feed_url_replace` -/
def feedUrlReplace (oldUrl new : List Char) : List Char :=
  if oldUrl.any isRefMark then
    if feedRefIsBranch oldUrl then new ++ ';' :: feedRef oldUrl false
    else new ++ '^' :: feedRef oldUrl false
  else new

/-- `git_mirror_url` -/
def gitMirrorUrl (gitMirror : Option PlainUrl) (url : List Char) : List Char :=
  match gitMirror with
  | some mirror => feedUrlReplace url mirror.1
  | none => url

/-- The remote of the clone is the mirror, if there is one, and else the address. -/
theorem feedUrl_gitMirrorUrl (reference : Reference hs) (address : PlainUrl)
    (gitMirror : Option PlainUrl) :
    feedUrl (gitMirrorUrl gitMirror (reference.url address.1)) =
      (gitMirror.map Subtype.val).getD address.1 := by
  cases gitMirror with
  | none => exact feedUrl_url reference address
  | some mirror =>
    by_cases hdefault : reference = .default
    · subst hdefault
      have hplain : address.1.any isRefMark = false := by simpa using address.2
      simpa [gitMirrorUrl, feedUrlReplace, Reference.url, hplain] using feedUrl_plain mirror.2
    · obtain ⟨mark, hmark, -, hurl⟩ := url_eq_mark hdefault
      have hname := name_noMark hdefault
      simp only [gitMirrorUrl, feedUrlReplace, hurl, any_mark hmark, if_true,
        feedRef_mark hmark hname]
      split
      · exact feedUrl_mark (by decide) hname
      · exact feedUrl_mark (by decide) hname

/-- What a fetch from a url finds there. -/
def World.serves (w : World C) (gitMirror : Option PlainUrl) (url : List Char) :
    Option (Source (List Char) C) :=
  if gitMirror.map Subtype.val = some url then w.mirror
  else if url = w.address.1 then some w.remote
  else none

/-- The mirror after `git remote update --prune`, which leaves its `HEAD` alone, or
after `git clone --mirror`. -/
def World.updatedMirror (w : World C) : Source (List Char) C :=
  match w.mirror with
  | some mirror => { w.remote with head := mirror.head }
  | none => w.remote

/-- `git_mirror_update`, which fails for the address of another remote. -/
def gitMirrorUpdate (w : World C) (q : Request hs) (url : List Char) : Option (World C) :=
  if q.gitMirror.isNone || q.mirrorsUpdated then some w
  else if url = w.address.1 then some { w with mirror := some w.updatedMirror }
  else none

/-- Where the call fetches from, with the mirror as it is then. -/
def World.source (w : World C) (q : Request hs) : Option (Source (List Char) C) :=
  if q.gitMirror.isNone then some w.remote
  else if q.mirrorsUpdated then w.mirror
  else some w.updatedMirror

/-- Where a call looks for the remote, it finds the source. -/
theorem serves_source (w : World C) (q : Request hs) :
    ∃ w', gitMirrorUpdate w q w.address.1 = some w' ∧
      w'.serves q.gitMirror ((q.gitMirror.map Subtype.val).getD w.address.1) = w.source q := by
  cases hmirror : q.gitMirror with
  | none =>
    refine ⟨w, by simp [gitMirrorUpdate, hmirror], ?_⟩
    simp [World.serves, World.source, hmirror]
  | some mirror =>
    cases hupdated : q.mirrorsUpdated with
    | true =>
      refine ⟨w, by simp [gitMirrorUpdate, hupdated], ?_⟩
      simp [World.serves, World.source, hmirror, hupdated]
    | false =>
      refine ⟨{ w with mirror := some w.updatedMirror }, ?_, ?_⟩
      · simp [gitMirrorUpdate, hmirror, hupdated]
      · simp [World.serves, World.source, hmirror, hupdated]

variable [PartialOrder C] [DecidableLE C]

/-- `git fetch origin` with a name or hash or `HEAD`. -/
def fetchOne (hs : Hashes C) (clone : Clone (List Char) C) (src : Source (List Char) C)
    (ref : List Char) : Option (Clone (List Char) C) :=
  if ref = "HEAD".toList then clone.fetchRemoteHead src
  else
    match hs.read ref with
    | some c => clone.fetchCommit src.toRefs c
    | none => clone.fetchRef src.toRefs ref

/-- `git checkout -f` with a name or hash or `FETCH_HEAD`. -/
def checkoutOne (hs : Hashes C) (clone : Clone (List Char) C) (ref : List Char) :
    Option (Clone (List Char) C) :=
  if ref = "FETCH_HEAD".toList then clone.checkoutFetchHead
  else clone.checkout ref (hs.read ref)

/-- The end of `git_checkout`, after a fetch that has failed or not: the world and
whether the call succeeds. The submodules do not move `HEAD`. -/
def checkoutFetched (hs : Hashes C) (w : World C) (fetched : Option (Clone (List Char) C))
    (ref : List Char) : World C × Bool :=
  match fetched with
  | none => (w, false)
  | some clone =>
    match checkoutOne hs clone ref with
    | none => ({ w with clone := some clone }, false)
    | some after => ({ w with clone := some after }, true)

/-- `git_checkout` -/
def gitCheckout (w : World C) (q : Request hs) : World C × Bool :=
  let url := q.reference.url w.address.1
  let remoteUrl := feedUrl (gitMirrorUrl q.gitMirror url)
  let clone := w.clone.getD .init
  let w := { w with clone := some clone }
  if q.gitMirror.isSome || feedRefIsBranch url then
    match gitMirrorUpdate w q (feedUrl url) with
    | none => (w, false)
    | some w =>
      let fetched := (w.serves q.gitMirror remoteUrl).bind fun src =>
        fetchOne hs clone src (feedRef url false)
      checkoutFetched hs w fetched (feedRef url true)
  else
    let fetched := (w.serves q.gitMirror remoteUrl).map fun src => clone.fetchAll src.toRefs
    checkoutFetched hs w fetched (feedRef url true)

/-- The commit is what the remote has for the reference. -/
def Denotes (remote : Source (List Char) C) : Reference hs → C → Prop
  | .default, c => remote.headCommit = some c
  | .branch r, c => remote.branch r.1 = some c
  | .revision r, c => remote.branch r.1 = some c ∨ remote.tag r.1 = some c
  | .commit d, c => c = d

/-- If the call succeeds, it leaves `HEAD` at what the remote has for the reference. -/
def Converges (w : World C) (q : Request hs) : Prop :=
  (gitCheckout w q).2 = true →
    ∃ c, (gitCheckout w q).1.clone.bind Clone.headCommit = some c ∧ Denotes w.remote q.reference c

/-- A name is not taken in the clone by a branch of something else, nor without a
branch by a tag of something else, and without both what is fetched is right. -/
def NameFree (clone : Clone (List Char) C) (r : List Char) (right : C → Prop) (fetched : Prop) :
    Prop :=
  (∀ l ∈ clone.branches r, right l) ∧
    (clone.branches r = none →
      (∀ t ∈ clone.tags r, right t) ∧ (clone.tags r = none → fetched))

/-- Fetched by its name, a branch of the source has to be right, and behind a tag of
the source, which is not stored, the tracking branch. -/
def FetchedByName (clone : Clone (List Char) C) (src : Source (List Char) C) (r : List Char)
    (right : C → Prop) : Prop :=
  (src.tag r = none → ∀ b ∈ src.branch r, right b) ∧
    (src.tag r ≠ none → ∀ o ∈ clone.tracking r, right o)

/-- Fetched with all branches, the tracking branch of a deleted branch has to be right
unless a tag is fetched. -/
def FetchedWithAll (clone : Clone (List Char) C) (src : Source (List Char) C) (r : List Char)
    (right : C → Prop) : Prop :=
  src.branch r = none → (∀ t ∈ src.tag r, ¬ clone.Gets src.toRefs t) →
    ∀ o ∈ clone.tracking r, right o

/-- The source has a branch or tag of the name. -/
def HasName (src : Source (List Char) C) (r : List Char) : Prop :=
  src.tag r ≠ none ∨ src.branch r ≠ none

/-- Nothing that the clone and the source have is in the way of the reference. -/
def UpToDate (w : World C) (q : Request hs) : Prop :=
  let clone := w.clone.getD .init
  let right := Denotes w.remote q.reference
  match q.reference with
  | .default =>
    if q.gitMirror.isSome then ∀ src ∈ w.source q, ∀ c ∈ src.headCommit, right c
    else ∀ c ∈ clone.firstFetched w.remote.toRefs, right c
  | .branch r =>
    ∀ src ∈ w.source q, HasName src r.1 →
      NameFree clone r.1 right (FetchedByName clone src r.1 right)
  | .revision r =>
    if q.gitMirror.isSome then
      ∀ src ∈ w.source q, HasName src r.1 →
        NameFree clone r.1 right (FetchedByName clone src r.1 right)
    else NameFree clone r.1 right (FetchedWithAll clone w.remote r.1 right)
  | .commit c =>
    (q.gitMirror.isSome → ∃ src ∈ w.source q, src.reaches c = true) →
      ∀ l ∈ clone.branches (hs.text c), l = c

/-! ### The steps of a call -/

/-- The clone after the fetch of a call, if that succeeds. -/
def World.fetched (w : World C) (q : Request hs) : Option (Clone (List Char) C) :=
  let clone := w.clone.getD .init
  let all := some (clone.fetchAll w.remote.toRefs)
  match q.reference with
  | .default =>
    if q.gitMirror.isSome then (w.source q).bind fun src => clone.fetchRemoteHead src else all
  | .branch r => (w.source q).bind fun src => clone.fetchRef src.toRefs r.1
  | .revision r =>
    if q.gitMirror.isSome then (w.source q).bind fun src => clone.fetchRef src.toRefs r.1 else all
  | .commit c =>
    if q.gitMirror.isSome then (w.source q).bind fun src => clone.fetchCommit src.toRefs c else all

private theorem fetchOne_name {r : List Char} (hr : IsRefName hs r)
    (clone : Clone (List Char) C) (src : Source (List Char) C) :
    fetchOne hs clone src r = clone.fetchRef src.toRefs r := by
  rw [fetchOne, if_neg hr.2.2.1, hr.2.1]

private theorem fetchOne_text (clone : Clone (List Char) C) (src : Source (List Char) C) (c : C) :
    fetchOne hs clone src (hs.text c) = clone.fetchCommit src.toRefs c := by
  rw [fetchOne, if_neg (hs.text_ne c hs.read_head), hs.read_text]

/-- A call fetches and then checks out. -/
theorem gitCheckout_eq (w : World C) (q : Request hs) :
    ∃ w', gitCheckout w q = checkoutFetched hs w' (w.fetched q) q.reference.name := by
  have hname : feedRef (q.reference.url w.address.1) true = q.reference.name := by
    by_cases hdefault : q.reference = .default
    · rw [hdefault]
      exact feedRef_default w.address true
    · exact feedRef_url _ hdefault w.address true
  unfold gitCheckout
  simp only [feedUrl_url, feedUrl_gitMirrorUrl, hname]
  by_cases hnamed : (q.gitMirror.isSome || feedRefIsBranch (q.reference.url w.address.1)) = true
  · -- The reference alone is fetched from the source.
    rw [if_pos hnamed]
    obtain ⟨w', hupdate, hserves⟩ :=
      serves_source { w with clone := some (w.clone.getD .init) } q
    simp only at hupdate hserves
    rw [hupdate]
    refine ⟨w', ?_⟩
    simp only [hserves]
    congr 1
    have hsource : ({ w with clone := some (w.clone.getD .init) } : World C).source q =
      w.source q := rfl
    rw [hsource, World.fetched]
    cases href : q.reference with
    | default =>
      have hmirror : q.gitMirror.isSome = true := by
        simpa [href, feedRefIsBranch_url] using hnamed
      simp only [feedRef_default, hmirror, if_true, if_neg Bool.false_ne_true]
      exact congrArg _ (funext fun src => if_pos rfl)
    | branch r =>
      simp only [feedRef_url (.branch r) (by simp) w.address false]
      exact congrArg _ (funext fun src => fetchOne_name r.2 _ src)
    | revision r =>
      have hmirror : q.gitMirror.isSome = true := by
        simpa [href, feedRefIsBranch_url] using hnamed
      simp only [feedRef_url (.revision r) (by simp) w.address false, hmirror, if_true]
      exact congrArg _ (funext fun src => fetchOne_name r.2 _ src)
    | commit c =>
      have hmirror : q.gitMirror.isSome = true := by
        simpa [href, feedRefIsBranch_url] using hnamed
      simp only [feedRef_url (.commit c) (by simp) w.address false, hmirror, if_true]
      exact congrArg _ (funext fun src => fetchOne_text _ src c)
  · rw [if_neg hnamed]
    rw [Bool.or_eq_true, not_or, feedRefIsBranch_url] at hnamed
    obtain ⟨hmirror, hbranch⟩ := hnamed
    have hnone : q.gitMirror = none := by simpa using hmirror
    refine ⟨{ w with clone := some (w.clone.getD .init) }, ?_⟩
    congr 1
    rw [hnone, World.fetched]
    cases href : q.reference with
    | branch r => exact absurd ⟨r, href⟩ hbranch
    | default => simp [World.serves, hnone]
    | revision r => simp [World.serves, hnone]
    | commit c => simp [World.serves, hnone]

private theorem headCommit_isSome {clone after : Clone (List Char) C} {ref : List Char}
    (h : checkoutOne hs clone ref = some after) : after.headCommit.isSome := by
  unfold checkoutOne at h
  split at h
  · obtain ⟨c, -, rfl⟩ := Option.map_eq_some_iff.mp h
    rfl
  · exact Clone.headCommit_isSome_of_checkout h

/-- A call converges if what it finds after the fetch is what the remote has. -/
theorem converges_iff (w : World C) (q : Request hs) :
    Converges w q ↔ ∀ clone ∈ w.fetched q,
      ∀ c ∈ (checkoutOne hs clone q.reference.name).bind Clone.headCommit,
        Denotes w.remote q.reference c := by
  obtain ⟨w', heq⟩ := gitCheckout_eq w q
  rw [Converges, heq]
  cases hfetched : w.fetched q with
  | none => simp [checkoutFetched]
  | some clone =>
    cases hcheckout : checkoutOne hs clone q.reference.name with
    | none => simp [checkoutFetched, hcheckout]
    | some after =>
      obtain ⟨c, hc⟩ := Option.isSome_iff_exists.mp (headCommit_isSome hcheckout)
      simp [checkoutFetched, hcheckout, hc]

/-! ### What a call finds -/

private theorem forall_mem_or {α : Type*} {a b : Option α} {p : α → Prop} :
    (∀ c ∈ a.or b, p c) ↔ (∀ c ∈ a, p c) ∧ (a = none → ∀ c ∈ b, p c) := by
  cases a <;> simp

/-- A name is looked up in the branches, the tags and the tracking branches. -/
theorem checkoutOne_name_iff {r : List Char} (hr : IsRefName hs r) (clone : Clone (List Char) C)
    (right : C → Prop) :
    (∀ c ∈ (checkoutOne hs clone r).bind Clone.headCommit, right c) ↔
      NameFree clone r right (∀ o ∈ clone.tracking r, right o) := by
  rw [checkoutOne, if_neg hr.2.2.2, hr.2.1, Clone.checkout_name_bind, forall_mem_or,
    forall_mem_or]
  rfl

/-- A name after it is fetched alone. -/
theorem fetchRef_name_iff {r : List Char} (hr : IsRefName hs r) (clone : Clone (List Char) C)
    (src : Source (List Char) C) (right : C → Prop) :
    (∀ clone' ∈ clone.fetchRef src.toRefs r,
      ∀ c ∈ (checkoutOne hs clone' r).bind Clone.headCommit, right c) ↔
    (HasName src r → NameFree clone r right (FetchedByName clone src r right)) := by
  unfold Clone.fetchRef
  cases htag : src.tag r with
  | some t =>
    have hlookup := checkoutOne_name_iff hr
      { clone with fetchHead := some t, tips := t :: clone.tips } right
    simpa [HasName, FetchedByName, NameFree, htag] using hlookup
  | none =>
    cases hbranch : src.branch r with
    | none => simp [HasName, htag, hbranch]
    | some b =>
      have hlookup := checkoutOne_name_iff hr
        { clone with
          tracking := Function.update clone.tracking r (some b)
          fetchHead := some b
          tips := b :: clone.tips } right
      simpa [HasName, FetchedByName, NameFree, htag, hbranch] using hlookup

/-- A name after everything is fetched. -/
theorem fetchAll_name_iff {r : List Char} (hr : IsRefName hs r) (clone : Clone (List Char) C)
    (src : Source (List Char) C) {right : C → Prop}
    (hright : ∀ c, src.branch r = some c ∨ src.tag r = some c → right c) :
    (∀ c ∈ (checkoutOne hs (clone.fetchAll src.toRefs) r).bind Clone.headCommit, right c) ↔
      NameFree clone r right (FetchedWithAll clone src r right) := by
  rw [checkoutOne_name_iff hr]
  refine and_congr_right fun _ => imp_congr_right fun _ => ?_
  cases htag : clone.tags r with
  | some t => simp [Clone.fetchAll, htag]
  | none =>
    have hfetched : ∀ t ∈ (src.tag r).filter (clone.Gets src.toRefs ·), right t :=
      fun t ht => hright t (.inr (Option.mem_filter_iff.mp ht).1)
    have hbranch : ∀ b ∈ src.branch r, right b := fun b hb => hright b (.inl hb)
    have hnone : (src.tag r).filter (clone.Gets src.toRefs ·) = none ↔
        ∀ t ∈ src.tag r, ¬ clone.Gets src.toRefs t := by
      simp [Option.filter_eq_none_iff]
    simp only [Clone.fetchAll, htag, Option.none_or, forall_mem_or, hnone]
    constructor
    · rintro ⟨-, h⟩
      exact ⟨by simp, fun _ hdeleted hunfetched => (h hunfetched).2 hdeleted⟩
    · rintro ⟨-, h⟩
      exact ⟨hfetched, fun hunfetched => ⟨hbranch, fun hdeleted => h trivial hdeleted hunfetched⟩⟩

/-- A hash after a fetch finds the commit, unless a branch of the clone has its name. -/
theorem checkoutOne_text_iff (clone : Clone (List Char) C) (c : C) :
    (∀ d ∈ (checkoutOne hs clone (hs.text c)).bind Clone.headCommit, d = c) ↔
      ∀ l ∈ clone.branches (hs.text c), l = c := by
  rw [checkoutOne, if_neg (hs.text_ne c hs.read_fetchHead), hs.read_text,
    Clone.checkout_hash_bind, forall_mem_or]
  refine and_iff_left_of_imp fun _ _ d hd => ?_
  split at hd
  · exact (Option.some.inj hd).symm
  · cases hd

/-- `FETCH_HEAD` is what the fetch has left first. -/
theorem checkoutOne_default (clone : Clone (List Char) C) :
    (checkoutOne hs clone (Reference.default : Reference hs).name).bind Clone.headCommit =
      clone.fetchHead := by
  have hname : (Reference.default : Reference hs).name = "FETCH_HEAD".toList := rfl
  rw [checkoutOne, if_pos hname, Clone.checkoutFetchHead_bind]

private theorem forall_mem_bind {α β : Type*} {o : Option α} {f : α → Option β} {p : β → Prop} :
    (∀ b ∈ o.bind f, p b) ↔ ∀ a ∈ o, ∀ b ∈ f a, p b := by
  cases o <;> simp

/-- A call that fetches one name from the source. -/
theorem fetched_by_name_iff (w : World C) (q : Request hs) {r : List Char} (hr : IsRefName hs r)
    (right : C → Prop) :
    (∀ clone ∈ (w.source q).bind fun src => (w.clone.getD .init).fetchRef src.toRefs r,
      ∀ c ∈ (checkoutOne hs clone r).bind Clone.headCommit, right c) ↔
    ∀ src ∈ w.source q, HasName src r →
      NameFree (w.clone.getD .init) r right (FetchedByName (w.clone.getD .init) src r right) := by
  rw [forall_mem_bind]
  exact forall₂_congr fun src _ => fetchRef_name_iff hr _ src right

/-- **One call.** From any state of the clone, the remote and the mirror, a call
converges exactly when nothing is in the way of its reference. -/
theorem converges_iff_upToDate (w : World C) (q : Request hs) : Converges w q ↔ UpToDate w q := by
  rw [converges_iff]
  obtain ⟨reference, gitMirror, mirrorsUpdated⟩ := q
  cases reference with
  | default =>
    simp only [checkoutOne_default]
    cases gitMirror with
    | some mirror =>
      simp only [World.fetched, UpToDate, Option.isSome_some, if_true, forall_mem_bind]
      refine forall₂_congr fun src _ => ?_
      cases hhead : src.headCommit <;> simp [Clone.fetchRemoteHead, hhead]
    | none => simp [World.fetched, UpToDate, Clone.fetchAll]
  | branch r => exact fetched_by_name_iff w _ r.2 _
  | revision r =>
    cases gitMirror with
    | some mirror => exact fetched_by_name_iff w _ r.2 _
    | none =>
      simp only [World.fetched, UpToDate, Option.isSome_none, Bool.false_eq_true, if_false,
        Option.mem_some_iff, forall_eq']
      exact fetchAll_name_iff r.2 _ w.remote fun c hc => hc
  | commit c =>
    cases gitMirror with
    | some mirror =>
      simp only [World.fetched, UpToDate, Option.isSome_some, if_true, forall_const]
      rw [forall_mem_bind]
      constructor
      · rintro h ⟨src, hsrc, hreaches⟩
        have hfetched := h src hsrc _ (if_pos hreaches)
        have hlocal := (checkoutOne_text_iff _ c).mp hfetched
        exact hlocal
      · intro h src hsrc clone hclone
        unfold Clone.fetchCommit at hclone
        split at hclone
        next hreaches =>
          obtain rfl := Option.some.inj hclone
          exact (checkoutOne_text_iff _ c).mpr (h ⟨src, hsrc, hreaches⟩)
        next => cases hclone
    | none =>
      simp only [World.fetched, UpToDate, Option.isSome_none, Bool.false_eq_true, if_false,
        Option.mem_some_iff, forall_eq', false_imp_iff, forall_const]
      exact checkoutOne_text_iff _ c

/-! ### Runs -/

/-- What can happen to the world: somebody pushes to the remote or works on the mirror,
the clone is removed, or there is a call. -/
inductive Event (hs : Hashes C)
  | remote (remote : Source (List Char) C)
  | mirror (mirror : Option (Source (List Char) C))
  | clean
  | checkout (q : Request hs)

/-- One event. -/
def step (w : World C) : Event hs → World C
  | .remote remote => { w with remote := remote }
  | .mirror mirror => { w with mirror := mirror }
  | .clean => { w with clone := none }
  | .checkout q => (gitCheckout w q).1

/-- If the event is a call, the condition on calls holds for it. -/
def OnCheckout (p : World C → Request hs → Prop) (w : World C) : Event hs → Prop
  | .checkout q => p w q
  | _ => True

/-- Two commits, one after the other. -/
inductive Commit
  | first
  | second
  deriving DecidableEq

instance : PartialOrder Commit where
  le c d := c = .first ∨ d = .second
  le_refl c := by cases c <;> simp
  le_trans c d e := by cases c <;> cases d <;> cases e <;> simp
  le_antisymm c d := by cases c <;> cases d <;> simp

instance : DecidableLE Commit := fun c d =>
  inferInstanceAs (Decidable (c = .first ∨ d = .second))

/-- The hashes of the two commits. -/
def Commit.hashes : Hashes Commit where
  text
    | .first => "2ce4fe13b843f9edbba5c76dad467daba54ffe0a".toList
    | .second => "500e296b0f0fc54cfc643c45c163568dd5c94ba6".toList
  read text :=
    if text = "2ce4fe13b843f9edbba5c76dad467daba54ffe0a".toList then some .first
    else if text = "500e296b0f0fc54cfc643c45c163568dd5c94ba6".toList then some .second
    else none
  read_text c := by cases c <;> decide
  text_noMark c := by
    cases c
    · exact List.all_iff_forall_prop.mp (by decide)
    · exact List.all_iff_forall_prop.mp (by decide)
  read_head := by decide
  read_fetchHead := by decide

/-- A remote with the branch `master` at a commit. -/
def masterAt (c : Commit) : Source (List Char) Commit where
  branches := [("master".toList, c)]
  tags := []
  branches_sorted := by simp
  tags_sorted := by simp
  head := "master".toList

/-- A call for the revision `master`, as `get_updater_ng` makes it. -/
def checkoutMaster : Request Commit.hashes where
  reference := .revision ⟨"master".toList, List.all_iff_forall_prop.mp (by decide), by decide⟩
  gitMirror := none
  mirrorsUpdated := false

/-- Nothing is checked out of the updater yet. -/
def updaterWorld : World Commit where
  address := ⟨"https://gitlab.nic.cz/turris/updater/updater.git".toList,
    List.all_iff_forall_prop.mp (by decide)⟩
  remote := masterAt .first
  mirror := none
  clone := none

end TurrisBuild.GitCheckout
