import TurrisBuild.Hook.Input
import TurrisBuild.Lib.Runs

/-!
# The order of the release branches

`hbk`, `hbl` and `hbd` are meant to contain one another in this order on the
server. This file follows the three heads through a sequence of accepted
pushes. The hook compares the pushed `hbk` with the pushed `hbl` only when the
latter is empty, so a push of both is accepted in any relative position, and
that is the one way in which an accepted push can break the order.
-/

namespace TurrisBuild.Hook

open History

variable {C : Type*} [PartialOrder C]

/-- The heads of the three release branches on the server. -/
structure Heads (C : Type*) where
  hbk : C
  hbl : C
  hbd : C

/-- Every release branch contains the more stable ones. -/
def Heads.Ordered (h : Heads C) : Prop := h.hbk ≤ h.hbl ∧ h.hbl ≤ h.hbd

instance [DecidableLE C] (h : Heads C) : Decidable h.Ordered :=
  inferInstanceAs (Decidable (_ ∧ _))

/-- The full name of the branch `hbk` on the server. -/
def hbkRef : List Char := "refs/heads/".toList ++ "hbk".toList

/-- The full name of the branch `hbl` on the server. -/
def hblRef : List Char := "refs/heads/".toList ++ "hbl".toList

/-- The full name of the branch `hbd` on the server. -/
def hbdRef : List Char := "refs/heads/".toList ++ "hbd".toList

/-- What a line does to a reference: a removal or a line for another reference
leaves the commit found so far. -/
def PushLine.record (ref : List Char) (found : Option C) (line : PushLine C) : Option C :=
  match line.localSha1 with
  | .zero => found
  | .commit c => if line.remoteRef = ref then some c else found

/-- The server moves a release branch to the commit pushed to it. -/
def Heads.receive (h : Heads C) (line : PushLine C) : Heads C where
  hbk := (line.record hbkRef none).getD h.hbk
  hbl := (line.record hblRef none).getD h.hbl
  hbd := (line.record hbdRef none).getD h.hbd

/-- One invocation of `git push` with the repository it is run in and the object
names there. -/
structure Push (C : Type*) [PartialOrder C] where
  repo : Repository C
  name : C → List Char
  names : ObjectNames name repo.revParse
  remoteName : List Char
  remoteUrl : List Char
  lines : List (PushLine C)

/-- What the hook says about the lines that git writes for the push. -/
def Push.verdict [DecidableLE C] (p : Push C) : Except Refusal Unit :=
  hook p.repo p.remoteName p.remoteUrl (hookInput p.name p.lines)

/-- Every local reference of the push is typed without a blank. -/
def Push.BlankFree (p : Push C) : Prop := ∀ line ∈ p.lines, line.BlankFree

/-- The heads after a push that the server takes. -/
def Heads.push (h : Heads C) (p : Push C) : Heads C := p.lines.foldl Heads.receive h

/-- The line fast-forwards the release branch it names. Other references are free. -/
def PushLine.FastForwards (line : PushLine C) (ref : List Char) (head : C) : Prop :=
  line.remoteRef = ref → ∃ c, line.localSha1 = .commit c ∧ head ≤ c

/-- A push to the guarded server that the hook lets through: the release
branches are fast-forwarded, never deleted, and the remote-tracking `hbd` is up
to date. Git passes full reference names to the hook. -/
structure Push.Accepted [DecidableLE C] (h : Heads C) (p : Push C) : Prop where
  server : guardsUrl p.remoteUrl = true
  fullName : ∀ line ∈ p.lines, line.FullName
  tracking : p.repo.revParse (trackingName p.remoteName) = some h.hbd
  hbk : ∀ line ∈ p.lines, line.FastForwards hbkRef h.hbk
  hbl : ∀ line ∈ p.lines, line.FastForwards hblRef h.hbl
  hbd : ∀ line ∈ p.lines, line.FastForwards hbdRef h.hbd
  passes : p.verdict = .ok ()

/-- The commit that the push leaves at a full reference name, if it names it. -/
def Push.target (p : Push C) (ref : List Char) : Option C :=
  p.lines.foldl (PushLine.record ref) none

/-- When the push moves both `hbk` and `hbl`, it puts `hbk` into the history of `hbl`. -/
def Push.NestsHbk (p : Push C) : Prop :=
  ∀ k ∈ p.target hbkRef, ∀ l ∈ p.target hblRef, k ≤ l

/-! ### What the loop collects -/

/-- A stripped full name is a short name exactly when it is the branch of that name. -/
theorem stripHeads_eq_iff {ref : List Char} (href : "refs/".toList <+: ref) (name : List Char)
    (hname : ¬"refs/".toList <+: name) :
    stripHeads ref = name ↔ ref = "refs/heads/".toList ++ name := by
  unfold stripHeads
  split
  · next hprefix =>
    obtain ⟨rest, rfl⟩ := List.isPrefixOf_iff_prefix.mp hprefix
    rw [List.drop_left, List.append_cancel_left_eq]
  · next hprefix =>
    constructor
    · rintro rfl
      exact absurd href hname
    · rintro rfl
      exact absurd (List.isPrefixOf_iff_prefix.mpr (List.prefix_append _ _)) hprefix

private theorem classify_cases (name : List Char) :
    (name = "hbk".toList ∧ classify name = .hbk) ∨ (name = "hbl".toList ∧ classify name = .hbl) ∨
    (name = "hbd".toList ∧ classify name = .hbd) ∨
    ((name ≠ "hbk".toList ∧ name ≠ "hbl".toList ∧ name ≠ "hbd".toList) ∧
      (classify name = .other ∨ ∃ base a b, classify name = .topic base a b)) := by
  unfold classify
  by_cases hk : name = "hbk".toList
  · exact .inl ⟨hk, if_pos hk⟩
  by_cases hl : name = "hbl".toList
  · exact .inr (.inl ⟨hl, by rw [if_neg hk, if_pos hl]⟩)
  by_cases hd : name = "hbd".toList
  · exact .inr (.inr (.inl ⟨hd, by rw [if_neg hk, if_neg hl, if_pos hd]⟩))
  refine .inr (.inr (.inr ⟨⟨hk, hl, hd⟩, ?_⟩))
  rw [if_neg hk, if_neg hl, if_neg hd]
  split
  · exact .inr ⟨_, _, _, rfl⟩
  split
  · exact .inr ⟨_, _, _, rfl⟩
  split
  · exact .inr ⟨_, _, _, rfl⟩
  · exact .inl rfl

/-- A line that the loop accepts updates the three variables the way the server
updates the three branches. -/
theorem readLine_ok [DecidableLE C] {repo : Repository C} {pushed pushed' : Pushed C}
    {line : PushLine C} (href : "refs/".toList <+: line.remoteRef)
    (hok : readLine repo pushed line = .ok pushed') :
    pushed' = ⟨line.record hbkRef pushed.hbk,
      line.record hblRef pushed.hbl,
      line.record hbdRef pushed.hbd⟩ := by
  have hk : stripHeads line.remoteRef = "hbk".toList ↔ line.remoteRef = hbkRef :=
    stripHeads_eq_iff href _ (by decide)
  have hl : stripHeads line.remoteRef = "hbl".toList ↔ line.remoteRef = hblRef :=
    stripHeads_eq_iff href _ (by decide)
  have hd : stripHeads line.remoteRef = "hbd".toList ↔ line.remoteRef = hbdRef :=
    stripHeads_eq_iff href _ (by decide)
  unfold readLine at hok
  cases hsha : line.localSha1 with
  | zero =>
    rw [hsha] at hok
    cases hok
    simp [PushLine.record, hsha]
  | commit c =>
    simp only [hsha] at hok
    rcases classify_cases (stripHeads line.remoteRef) with
      ⟨hname, hclass⟩ | ⟨hname, hclass⟩ | ⟨hname, hclass⟩ | ⟨⟨hnk, hnl, hnd⟩, hclass⟩
    · rw [hclass] at hok
      cases hok
      have hkl : hbkRef ≠ hblRef := by decide
      have hkd : hbkRef ≠ hbdRef := by decide
      simp [PushLine.record, hsha, hk.mp hname, hkl, hkd]
    · rw [hclass] at hok
      cases hok
      have hlk : hblRef ≠ hbkRef := by decide
      have hld : hblRef ≠ hbdRef := by decide
      simp [PushLine.record, hsha, hl.mp hname, hlk, hld]
    · rw [hclass] at hok
      cases hok
      have hdk : hbdRef ≠ hbkRef := by decide
      have hdl : hbdRef ≠ hblRef := by decide
      simp [PushLine.record, hsha, hd.mp hname, hdk, hdl]
    · have hsame : pushed = pushed' := by
        rcases hclass with hclass | ⟨base, a, b, hclass⟩
        · cases hremote : line.remoteSha1 <;> simp [hclass, hremote] at hok
          exact hok
        · simp only [hclass] at hok
          split at hok <;> simp at hok
          exact hok
      subst hsame
      have hrk : line.remoteRef ≠ hbkRef := fun h => hnk (hk.mpr h)
      have hrl : line.remoteRef ≠ hblRef := fun h => hnl (hl.mpr h)
      have hrd : line.remoteRef ≠ hbdRef := fun h => hnd (hd.mpr h)
      simp only [PushLine.record, hsha, if_neg hrk, if_neg hrl, if_neg hrd]

/-- The loop collects, for each release branch, the commit pushed to it. -/
theorem readLines_ok [DecidableLE C] {repo : Repository C} {pushed pushed' : Pushed C}
    {lines : List (PushLine C)}
    (href : ∀ line ∈ lines, "refs/".toList <+: line.remoteRef)
    (hok : readLines repo pushed lines = .ok pushed') :
    pushed' = ⟨lines.foldl (PushLine.record hbkRef) pushed.hbk,
      lines.foldl (PushLine.record hblRef) pushed.hbl,
      lines.foldl (PushLine.record hbdRef) pushed.hbd⟩ := by
  induction lines generalizing pushed with
  | nil =>
    cases hok
    rfl
  | cons line lines ih =>
    unfold readLines at hok
    cases hline : readLine repo pushed line with
    | error refusal => simp [hline] at hok
    | ok next =>
      simp only [hline] at hok
      have hnext := readLine_ok (href line List.mem_cons_self) hline
      have hrest := ih (fun l hl => href l (List.mem_cons_of_mem _ hl)) hok
      rw [hrest, hnext]
      rfl

private theorem foldl_record_ge {ref : List Char} {head : C} {lines : List (PushLine C)}
    (hlines : ∀ line ∈ lines, line.FastForwards ref head) {found : Option C}
    (hfound : ∀ c ∈ found, head ≤ c) :
    ∀ c ∈ lines.foldl (PushLine.record ref) found, head ≤ c := by
  induction lines generalizing found with
  | nil => exact hfound
  | cons line lines ih =>
    refine ih (fun l hl => hlines l (List.mem_cons_of_mem _ hl)) ?_
    intro c hc
    have hline := hlines line List.mem_cons_self
    cases hsha : line.localSha1 with
    | zero => exact hfound c (by simpa [PushLine.record, hsha] using hc)
    | commit d =>
      by_cases href : line.remoteRef = ref
      · obtain ⟨e, he, hle⟩ := hline href
        have hde : d = e := by simpa [hsha] using he
        have hdc : d = c := by simpa [PushLine.record, hsha, href] using hc
        rw [← hdc, hde]
        exact hle
      · exact hfound c (by simpa [PushLine.record, hsha, href] using hc)

/-- A fast-forwarding push moves a release branch only forward. -/
theorem Push.head_le_target {p : Push C} {ref : List Char} {head : C}
    (hlines : ∀ line ∈ p.lines, line.FastForwards ref head) :
    ∀ c ∈ p.target ref, head ≤ c :=
  foldl_record_ge hlines (by simp)

omit [PartialOrder C] in
private theorem record_getD (ref : List Char) (found : Option C) (line : PushLine C) (c : C) :
    (line.record ref none).getD (found.getD c) = (line.record ref found).getD c := by
  unfold PushLine.record
  cases line.localSha1 with
  | zero => rfl
  | commit d => by_cases href : line.remoteRef = ref <;> simp [href]

omit [PartialOrder C] in
private theorem foldl_receive (h : Heads C) (lines : List (PushLine C)) (k l d : Option C) :
    lines.foldl Heads.receive ⟨k.getD h.hbk, l.getD h.hbl, d.getD h.hbd⟩ =
      ⟨(lines.foldl (PushLine.record hbkRef) k).getD h.hbk,
        (lines.foldl (PushLine.record hblRef) l).getD h.hbl,
        (lines.foldl (PushLine.record hbdRef) d).getD h.hbd⟩ := by
  induction lines generalizing k l d with
  | nil => rfl
  | cons line lines ih =>
    rw [List.foldl_cons, List.foldl_cons, List.foldl_cons, List.foldl_cons, ← ih]
    simp only [Heads.receive, record_getD]

/-- After a push each release branch is at its target, or where it was. -/
theorem Heads.push_eq (h : Heads C) (p : Push C) :
    h.push p = ⟨(p.target hbkRef).getD h.hbk,
      (p.target hblRef).getD h.hbl,
      (p.target hbdRef).getD h.hbd⟩ :=
  foldl_receive h p.lines none none none

/-! ### What the final checks establish -/

variable [DecidableLE C]

/-- The `hbk` checks pass exactly when `hbl` is pushed as well and the pushed
`hbk` lies in the pushed `hbd`, or in the remote-tracking one if there is none.
Nothing is said about the pushed `hbk` and the pushed `hbl`. -/
theorem checkHbk_ok_iff (tracking : Option C) (pushed : Pushed C) :
    checkHbk tracking pushed = .ok () ↔
      ∀ k ∈ pushed.hbk, pushed.hbl.isSome ∧ isAncestor (some k) (pushed.hbd.or tracking) := by
  obtain ⟨_ | k, _ | l, _ | d⟩ := pushed <;> simp [checkHbk]
  all_goals split <;> simp_all

/-- The `hbl` checks pass exactly when the pushed `hbl` lies in the pushed
`hbd`, or in the remote-tracking one if there is none. -/
theorem checkHbl_ok_iff (tracking : Option C) (pushed : Pushed C) :
    checkHbl tracking pushed = .ok () ↔
      ∀ l ∈ pushed.hbl, isAncestor (some l) (pushed.hbd.or tracking) := by
  obtain ⟨k, _ | l, _ | d⟩ := pushed <;> simp [checkHbl]

/-- The hook lets a push to its server through exactly when the loop and both
groups of checks do. -/
theorem prePush_ok {repo : Repository C} {remoteName remoteUrl : List Char}
    {lines : List (PushLine C)} (hserver : guardsUrl remoteUrl = true)
    (hok : prePush repo remoteName remoteUrl lines = .ok ()) :
    ∃ pushed, readLines repo Pushed.empty lines = .ok pushed ∧
      checkHbk (repo.revParse (trackingName remoteName)) pushed = .ok () ∧
      checkHbl (repo.revParse (trackingName remoteName)) pushed = .ok () := by
  simp only [prePush, hserver, if_true] at hok
  cases hread : readLines repo Pushed.empty lines with
  | error refusal => simp [hread] at hok
  | ok pushed =>
    simp only [hread] at hok
    cases hhbk : checkHbk (repo.revParse (trackingName remoteName)) pushed with
    | error refusal => simp [hhbk] at hok
    | ok u => exact ⟨pushed, rfl, hhbk, by simpa only [hhbk] using hok⟩

/-- What an accepted push guarantees about its targets. A pushed `hbk` comes
with a pushed `hbl`, and a pushed `hbl` lies in the new `hbd`. -/
theorem Push.Accepted.targets {h : Heads C} {p : Push C} (hp : p.Accepted h)
    (hfree : p.BlankFree) :
    (∀ k ∈ p.target hbkRef, (p.target hblRef).isSome) ∧
      ∀ l ∈ p.target hblRef,
        l ≤ (p.target hbdRef).getD h.hbd := by
  have hpasses := hp.passes
  rw [Push.verdict, hook_eq_prePush p.names hp.fullName hfree] at hpasses
  obtain ⟨pushed, hread, hhbk, hhbl⟩ := prePush_ok hp.server hpasses
  rw [hp.tracking] at hhbk hhbl
  rw [readLines_ok (fun line hline => (hp.fullName line hline).1) hread] at hhbk hhbl
  constructor
  · intro k hk
    exact ((checkHbk_ok_iff _ _).mp hhbk k hk).1
  · intro l hl
    have hanc := (checkHbl_ok_iff _ _).mp hhbl l hl
    change isAncestor (some l) ((p.target hbdRef).or (some h.hbd)) = true at hanc
    cases hd : p.target hbdRef with
    | none => simpa [hd] using hanc
    | some d => simpa [hd] using hanc

/-- **One push.** An accepted push of ordered heads leaves them ordered exactly
when it nests the pushed `hbk` in the pushed `hbl`. -/
theorem Heads.Ordered.push_iff {h : Heads C} {p : Push C} (hordered : h.Ordered)
    (hp : p.Accepted h) (hfree : p.BlankFree) : (h.push p).Ordered ↔ p.NestsHbk := by
  obtain ⟨hboth, hhbl⟩ := hp.targets hfree
  have hkge := Push.head_le_target hp.hbk
  have hlge := Push.head_le_target hp.hbl
  have hdge := Push.head_le_target hp.hbd
  obtain ⟨hkl, hld⟩ := hordered
  -- The upper half of the order always holds; only the lower half is at stake.
  have hupper : (p.target hblRef).getD h.hbl ≤
      (p.target hbdRef).getD h.hbd := by
    cases hl : p.target hblRef with
    | some l => exact hhbl l hl
    | none =>
      cases hd : p.target hbdRef with
      | some d => exact hld.trans (hdge d hd)
      | none => exact hld
  rw [Heads.push_eq, Heads.Ordered, Push.NestsHbk]
  cases hk : p.target hbkRef with
  | none =>
    simp only [Option.getD_none, Option.not_mem_none, false_imp_iff, implies_true, iff_true]
    refine ⟨?_, hupper⟩
    cases hl : p.target hblRef with
    | some l => exact hkl.trans (hlge l hl)
    | none => exact hkl
  | some k =>
    obtain ⟨l, hl⟩ := Option.isSome_iff_exists.mp (hboth k hk)
    simp only [hl, Option.getD_some] at hupper
    simp [hl, hupper]

/-- **Order of the release branches.** Along every sequence of accepted pushes
from ordered heads whose local references contain no blank, the order holds after
each push exactly when every push that moves both `hbk` and `hbl` puts `hbk` into
the history of `hbl`. -/
theorem pushes_ordered_iff {h : Heads C} {pushes : List (Push C)} (hordered : h.Ordered)
    (haccepted : Runs.Along Heads.push (fun h p => p.Accepted h) h pushes)
    (hfree : ∀ p ∈ pushes, p.BlankFree) :
    (∀ t ∈ Runs.states Heads.push h pushes, t.Ordered) ↔
      Runs.Along Heads.push (fun _ p => p.NestsHbk) h pushes :=
  Runs.forall_states_iff_along (fun _ _ hs hp => hs.push_iff hp.1 hp.2) hordered
    (Runs.along_and haccepted (Runs.along_of_forall_mem hfree))

/-! ### A push that splits the branches -/

/-- A small history: two commits on top of a common one, and their merge. -/
inductive Diamond
  | base
  | left
  | right
  | merge
  deriving DecidableEq

/-- The merge has all commits as ancestors, and the base is an ancestor of all. -/
instance : LE Diamond := ⟨fun a b => a = .base ∨ b = .merge ∨ a = b⟩

instance : DecidableLE Diamond :=
  fun a b => inferInstanceAs (Decidable (a = .base ∨ b = .merge ∨ a = b))

instance : SemilatticeInf Diamond where
  le_refl a := by cases a <;> decide
  le_trans a b c := by cases a <;> cases b <;> cases c <;> decide
  le_antisymm a b := by cases a <;> cases b <;> decide
  inf a b := if a ≤ b then a else if b ≤ a then b else .base
  inf_le_left a b := by cases a <;> cases b <;> decide
  inf_le_right a b := by cases a <;> cases b <;> decide
  le_inf a b c := by cases a <;> cases b <;> cases c <;> decide

/-- All three branches are at the base. -/
def diamondHeads : Heads Diamond := ⟨.base, .base, .base⟩

/-- The object names of its commits. -/
def diamondName : Diamond → List Char
  | .base => "1d0c6a5b3f9e84727c1b6f0a95d83e42b7f61c90".toList
  | .left => "2a7e91c4d8b35f60e3a9c27154fb80d96c1e7a35".toList
  | .right => "3f58b2e07a6cd4918b0f5e63d2a97c14e850b6d2".toList
  | .merge => "4c93d7f1b5208ae6409c7d1e8f36b2a5d17f04e8".toList

/-- What names resolve to when the branches have the given tips. -/
def diamondParse (branches : List Char → Diamond) (text : List Char) : Option Diamond :=
  if text = [] then none
  else
    some (([Diamond.base, .left, .right, .merge].find? fun c => text = diamondName c).getD
      (branches text))

/-- The names are those of commits. -/
theorem diamondNames (branches : List Char → Diamond) :
    ObjectNames diamondName (diamondParse branches) where
  length c := by cases c <;> rfl
  hex c := by cases c <;> exact List.all_iff_forall_prop.mp (by decide)
  ne_zero c := by cases c <;> decide
  resolves c := by cases c <;> rfl
  empty := rfl

/-- A repository whose references are all at the base. -/
def diamondRepo : Repository Diamond := Repository.ofInf (diamondParse fun _ => .base)

/-- The update of an existing branch of the server to a commit. -/
def diamondLine (ref : List Char) (c : Diamond) : PushLine Diamond :=
  ⟨ref, .commit c, ref, .commit .base⟩

/-- A push of the three branches to the three given commits. -/
def diamondPush (hbk hbl hbd : Diamond) : Push Diamond where
  repo := diamondRepo
  name := diamondName
  names := diamondNames _
  remoteName := "origin".toList
  remoteUrl := "git@gitlab.nic.cz:turris/os/build.git".toList
  lines := [diamondLine hbkRef hbk, diamondLine hblRef hbl, diamondLine hbdRef hbd]

private theorem forall_diamondLine {P : PushLine Diamond → Prop} {hbk hbl hbd : Diamond}
    (hk : P (diamondLine hbkRef hbk)) (hl : P (diamondLine hblRef hbl))
    (hd : P (diamondLine hbdRef hbd)) : ∀ line ∈ (diamondPush hbk hbl hbd).lines, P line := by
  intro line hline
  simp only [diamondPush, List.mem_cons, List.not_mem_nil, or_false] at hline
  obtain rfl | rfl | rfl := hline
  exacts [hk, hl, hd]

private theorem diamondLine_fastForwards (ref ref' : List Char) (c : Diamond) :
    (diamondLine ref c).FastForwards ref' .base :=
  fun _ => ⟨c, rfl, .inl rfl⟩

/-- The branches have full names. -/
theorem diamondPush_fullName (hbk hbl hbd : Diamond) :
    ∀ line ∈ (diamondPush hbk hbl hbd).lines, line.FullName :=
  forall_diamondLine (by decide : _ <+: hbkRef ∧ OneWord hbkRef)
    (by decide : _ <+: hblRef ∧ OneWord hblRef) (by decide : _ <+: hbdRef ∧ OneWord hbdRef)

/-- The full names of the branches contain no blank. -/
theorem diamondPush_blankFree (hbk hbl hbd : Diamond) : (diamondPush hbk hbl hbd).BlankFree :=
  forall_diamondLine (by decide : OneWord hbkRef) (by decide : OneWord hblRef)
    (by decide : OneWord hbdRef)

/-- The verdict about a push of the three branches. -/
theorem diamondPush_verdict (hbk hbl hbd : Diamond) :
    (diamondPush hbk hbl hbd).verdict = prePush diamondRepo "origin".toList
      "git@gitlab.nic.cz:turris/os/build.git".toList (diamondPush hbk hbl hbd).lines :=
  hook_eq_prePush (diamondNames _) (diamondPush_fullName hbk hbl hbd)
    (diamondPush_blankFree hbk hbl hbd) _ _

private theorem diamondPush_accepted {hbk hbl hbd : Diamond}
    (hpasses : prePush diamondRepo "origin".toList "git@gitlab.nic.cz:turris/os/build.git".toList
      (diamondPush hbk hbl hbd).lines = .ok ()) :
    (diamondPush hbk hbl hbd).Accepted diamondHeads where
  server := (by decide : guardsUrl "git@gitlab.nic.cz:turris/os/build.git".toList = true)
  fullName := diamondPush_fullName hbk hbl hbd
  tracking := rfl
  hbk := forall_diamondLine (diamondLine_fastForwards _ _ _) (diamondLine_fastForwards _ _ _)
    (diamondLine_fastForwards _ _ _)
  hbl := forall_diamondLine (diamondLine_fastForwards _ _ _) (diamondLine_fastForwards _ _ _)
    (diamondLine_fastForwards _ _ _)
  hbd := forall_diamondLine (diamondLine_fastForwards _ _ _) (diamondLine_fastForwards _ _ _)
    (diamondLine_fastForwards _ _ _)
  passes := (diamondPush_verdict hbk hbl hbd).trans hpasses

/-- A push of all three branches in their order keeps the heads ordered. -/
theorem pushes_ordered_at_merge :
    Runs.Along Heads.push (fun _ p => Push.NestsHbk p) diamondHeads
      [diamondPush .left .merge .merge] ∧
    ∀ t ∈ Runs.states Heads.push diamondHeads
      [diamondPush .left .merge .merge], t.Ordered := by
  have hnests : Runs.Along Heads.push (fun _ p => Push.NestsHbk p) diamondHeads
      [diamondPush .left .merge .merge] := by
    refine ⟨?_, trivial⟩
    rintro k hk l hl
    obtain rfl : Diamond.left = k := Option.some.inj hk
    obtain rfl : Diamond.merge = l := Option.some.inj hl
    decide
  have haccepted : Runs.Along Heads.push (fun h p => Push.Accepted h p) diamondHeads
      [diamondPush .left .merge .merge] :=
    ⟨diamondPush_accepted rfl, trivial⟩
  have hfree : ∀ p ∈ [diamondPush .left .merge .merge], p.BlankFree := by
    simpa using diamondPush_blankFree .left .merge .merge
  exact ⟨hnests, (pushes_ordered_iff (by decide) haccepted hfree).mpr hnests⟩

/-- The hook accepts a push of `hbk` and `hbl` to the two sides of the diamond
and of `hbd` to their merge, after which `hbk` is no ancestor of `hbl`. -/
theorem split_push_accepted :
    diamondHeads.Ordered ∧
    Runs.Along Heads.push (fun h p => Push.Accepted h p) diamondHeads
      [diamondPush .left .right .merge] ∧
    ¬∀ t ∈ Runs.states Heads.push diamondHeads
      [diamondPush .left .right .merge], t.Ordered := by
  refine ⟨by decide, ⟨diamondPush_accepted rfl, trivial⟩, ?_⟩
  intro hall
  have hordered := hall _ List.mem_cons_self
  exact absurd hordered (by decide)

end TurrisBuild.Hook
