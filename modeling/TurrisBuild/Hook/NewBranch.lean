import Mathlib.Data.List.DropRight
import TurrisBuild.Hook.TopicBranch
import TurrisBuild.Lib.Fields

/-!
# The helpers for topic branches

`.gitscripts/new-branch` asks for the name, the base and the designation of a
topic branch and creates it, and `.gitscripts/new-mr` opens a merge request for
it. Both know which designation belongs to which base, and so does the hook.
-/

namespace TurrisBuild.Hook

open History Fields

/-! ### `new-branch` -/

/-- `valid_base` -/
def validBase (base : List Char) : Bool :=
  ["hbk".toList, "hbl".toList, "hbd".toList].contains base

/-- `valid_desig` -/
def validDesig (base desig : List Char) : Bool :=
  if base = "hbk".toList then desig = "hotfix".toList
  else if base = "hbl".toList then
    ["bugfix".toList, "feature".toList, "refactor".toList, "hack".toList].contains desig
  else if base = "hbd".toList then
    ["fix".toList, "majorfeature".toList, "majorrefactor".toList, "majorhack".toList].contains desig
  else false

/-- `read -r` into a single variable. -/
def readAnswer (line : List Char) : List Char := (line.dropWhile isBlank).rdropWhile isBlank

/-- A loop that asks until the value is valid. Without a further answer it never
ends. -/
def ask (valid : List Char → Bool) (expand : List Char → List Char) :
    List Char → List (List Char) → Option (List Char × List (List Char))
  | value, answers =>
    if valid value then some (value, answers)
    else
      match answers with
      | [] => none
      | line :: answers => ask valid expand (expand (readAnswer line)) answers

/-- The short answers to the question for the base. -/
def expandBase (answer : List Char) : List Char :=
  if answer = "k".toList then "hbk".toList
  else if answer = "l".toList then "hbl".toList
  else if answer = "d".toList then "hbd".toList
  else answer

/-- The short answers to the question for the designation. -/
def expandDesig (base answer : List Char) : List Char :=
  if base = "hbl".toList then
    if ["b".toList, "bug".toList, "fix".toList].contains answer then "bugfix".toList
    else if answer = "f".toList then "feature".toList
    else if ["r".toList, "ref".toList].contains answer then "refactor".toList
    else if answer = "h".toList then "hack".toList
    else answer
  else
    if ["b".toList, "bug".toList, "bugfix".toList].contains answer then "fix".toList
    else if ["f".toList, "feature".toList].contains answer then "majorfeature".toList
    else if ["r".toList, "ref".toList, "refactor".toList].contains answer
    then "majorrefactor".toList
    else if ["h".toList, "hack".toList].contains answer then "majorhack".toList
    else answer

/-- The loop for the designation, which asks nothing for `hbk`. -/
def askDesig (base desig : List Char) (answers : List (List Char)) :
    Option (List Char × List (List Char)) :=
  if base = "hbk".toList then some ("hotfix".toList, answers)
  else ask (validDesig base) (expandDesig base) desig answers

/-- `new-branch`: the branch that is created and the one it starts from. -/
def newBranch (branchName branchBase branchDesig : List Char) (answers : List (List Char)) :
    Option (List Char × List Char) :=
  (ask (!·.isEmpty) id branchName answers).bind fun name =>
    (ask validBase expandBase branchBase name.2).bind fun base =>
      (askDesig base.1 branchDesig base.2).map fun desig =>
        (desig.1 ++ '/' :: name.1, base.1)

/-- `new-mr`: the branch that the current one is to be merged to. -/
def newMr (curBranch : List Char) : Option (List Char) :=
  if curBranch = "hbk".toList then none
  else if curBranch = "hbl".toList ∨ curBranch = "hbd".toList then none
  else if hasPrefixIn ["hotfix/"] curBranch then some "hbk".toList
  else if hasPrefixIn ["feature/", "bugfix/", "refactor/", "hack/"] curBranch then
    some "hbl".toList
  else if hasPrefixIn ["majorfeature/", "fix/", "majorrefactor/", "majorhack/"] curBranch then
    some "hbd".toList
  else none

/-! ### The branches it creates -/

/-- A loop ends with a valid value. -/
theorem valid_of_ask {valid : List Char → Bool} {expand : List Char → List Char}
    {value result : List Char} {answers rest : List (List Char)}
    (h : ask valid expand value answers = some (result, rest)) : valid result = true := by
  induction answers generalizing value with
  | nil =>
    unfold ask at h
    split at h
    next hvalid =>
      obtain ⟨rfl, -⟩ : value = result ∧ [] = rest := by simpa using h
      exact hvalid
    next => cases h
  | cons line answers ih =>
    unfold ask at h
    split at h
    next hvalid =>
      obtain ⟨rfl, -⟩ : value = result ∧ line :: answers = rest := by simpa using h
      exact hvalid
    next => exact ih h

/-- The base and the designation of a created branch belong together. -/
theorem newBranch_cases {branchName branchBase branchDesig branch base : List Char}
    {answers : List (List Char)}
    (h : newBranch branchName branchBase branchDesig answers = some (branch, base)) :
    (base = "hbk".toList ∧ hasPrefixIn ["hotfix/"] branch = true) ∨
    (base = "hbl".toList ∧
      hasPrefixIn ["feature/", "bugfix/", "refactor/", "hack/"] branch = true) ∨
    (base = "hbd".toList ∧
      hasPrefixIn ["majorfeature/", "fix/", "majorrefactor/", "majorhack/"] branch = true) := by
  simp only [newBranch, Option.bind_eq_some_iff, Option.map_eq_some_iff, Prod.mk.injEq] at h
  obtain ⟨⟨name, afterName⟩, -, ⟨base', afterBase⟩, hbase, ⟨desig, afterDesig⟩, hdesig, rfl, rfl⟩ :=
    h
  have hvalid := valid_of_ask hbase
  simp only [validBase, List.contains_iff_mem, List.mem_cons, List.not_mem_nil, or_false] at hvalid
  rcases hvalid with rfl | rfl | rfl
  · obtain ⟨rfl, -⟩ : "hotfix".toList = desig ∧ afterBase = afterDesig := by
      simpa [askDesig] using hdesig
    exact .inl ⟨rfl, rfl⟩
  · have hask : (["bugfix".toList, "feature".toList, "refactor".toList,
        "hack".toList].contains desig) = true := valid_of_ask hdesig
    simp only [List.contains_iff_mem, List.mem_cons, List.not_mem_nil, or_false] at hask
    refine .inr (.inl ⟨rfl, ?_⟩)
    rcases hask with rfl | rfl | rfl | rfl <;> rfl
  · have hask : (["fix".toList, "majorfeature".toList, "majorrefactor".toList,
        "majorhack".toList].contains desig) = true := valid_of_ask hdesig
    simp only [List.contains_iff_mem, List.mem_cons, List.not_mem_nil, or_false] at hask
    refine .inr (.inr ⟨rfl, ?_⟩)
    rcases hask with rfl | rfl | rfl | rfl <;> rfl

/-- `new-mr` targets the branch that the hook compares with. -/
theorem newMr_eq (branch : List Char) :
    newMr branch =
      match classify branch with
      | .topic base _ _ => some base
      | _ => none := by
  unfold newMr classify
  by_cases hk : branch = "hbk".toList
  · rw [if_pos hk, if_pos hk]
  by_cases hl : branch = "hbl".toList
  · rw [if_neg hk, if_pos (.inl hl), if_neg hk, if_pos hl]
  by_cases hd : branch = "hbd".toList
  · rw [if_neg hk, if_pos (.inr hd), if_neg hk, if_neg hl, if_pos hd]
  rw [if_neg hk, if_neg (not_or.mpr ⟨hl, hd⟩), if_neg hk, if_neg hl, if_neg hd]
  split
  · rfl
  split
  · rfl
  split <;> rfl

/-! ### Pushing a created branch -/

section Push

variable {C : Type*} [PartialOrder C]

/-- Further commits on top of one, each with the one before as its only parent and
none of them in a release branch. -/
inductive OnTop (h : Heads C) (b : C) : C → Prop
  | start : OnTop h b b
  | commit {c d : C} (hc : OnTop h b c) (hparent : c ≤ d) (honly : ∀ x ≤ d, x ≤ c ∨ x = d)
    (hhbk : ¬d ≤ h.hbk) (hhbl : ¬d ≤ h.hbl) (hhbd : ¬d ≤ h.hbd) : OnTop h b d

/-- The tip has the base and, apart from its history, no commit of `hbd`. -/
theorem OnTop.shares {h : Heads C} {b t : C} (ht : OnTop h b t) :
    b ≤ t ∧ SharesWithin t h.hbd b := by
  induction ht with
  | start => exact ⟨le_rfl, fun x hx _ => hx⟩
  | commit hc hparent honly hhbk hhbl hhbd ih =>
    obtain ⟨hbc, hshares⟩ := ih
    refine ⟨hbc.trans hparent, fun x hx hxd => ?_⟩
    rcases honly x hx with hxc | rfl
    · exact hshares x hxc hxd
    · exact absurd hxd hhbd

variable [DecidableLE C]

/-- The base with a more stable branch lies in the history of the start. -/
theorem OnTop.compareAncestors {h : Heads C} {repo : Repository C} {b a c t : C}
    {correct otherA otherB : List Char} (ht : OnTop h b t) (hb : repo.revParse correct = some b)
    (ha : repo.revParse otherA = some a) (hc : repo.revParse otherB = some c)
    (hcommon : ∃ x ≤ b, x ≤ a) (had : a ≤ h.hbd) :
    compareAncestors repo (.commit t) correct otherA otherB = true := by
  obtain ⟨hbt, hshares⟩ := ht.shares
  obtain ⟨x, hxb, hxa⟩ := hcommon
  obtain ⟨m, hm, hbest⟩ := repo.exists_mergeBase hbt le_rfl
  obtain ⟨n, hn, hbest'⟩ := repo.exists_mergeBase (hxb.trans hbt) hxa
  refine (compareAncestors_iff hb ha hc).mpr ⟨m, hm, .inl ⟨n, hn, ?_⟩⟩
  rw [hbest.eq_of_le hbt]
  exact hshares n hbest'.1.1 (hbest'.1.2.trans had)

/-- **The tools agree.** A branch that `new-branch` creates, with any number of
commits on top, passes the hook's check when it is pushed as a new branch, whatever
best common ancestors are printed, and the hook compares it with the branch that
`new-mr` selects. -/
theorem new_branch_pushable {branchName branchBase branchDesig branch base : List Char}
    {answers : List (List Char)}
    (hnew : newBranch branchName branchBase branchDesig answers = some (branch, base))
    {h : Heads C} {repo : Repository C} (hordered : h.Ordered) (hlocal : h.AreLocal repo)
    {b t : C} (hb : repo.revParse base = some b) (ht : OnTop h b t) (localRef : List Char)
    (pushed : Pushed C) :
    readLine repo pushed ⟨localRef, .commit t, "refs/heads/".toList ++ branch, .zero⟩ =
      .ok pushed ∧
    (∃ otherA otherB,
      classify (stripHeads ("refs/heads/".toList ++ branch)) = .topic base otherA otherB) ∧
    newMr branch = some base := by
  have hstrip : stripHeads ("refs/heads/".toList ++ branch) = branch := by
    rw [stripHeads, if_pos (List.isPrefixOf_iff_prefix.mpr (List.prefix_append _ _)),
      List.drop_left]
  -- It suffices that the comparison with the base passes.
  have hpass {otherA otherB : List Char} (hclass : classify branch = .topic base otherA otherB)
      (hcompare : compareAncestors repo (.commit t) base otherA otherB = true) :
      readLine repo pushed ⟨localRef, .commit t, "refs/heads/".toList ++ branch, .zero⟩ =
        .ok pushed ∧
      (∃ otherA otherB, classify branch = .topic base otherA otherB) ∧
      newMr branch = some base := by
    refine ⟨?_, ⟨_, _, hclass⟩, by rw [newMr_eq, hclass]⟩
    simp only [readLine, hstrip, hclass, hcompare, if_true]
  obtain ⟨hkl, hld⟩ := hordered
  rw [hstrip]
  rcases newBranch_cases hnew with ⟨rfl, hprefix⟩ | ⟨rfl, hprefix⟩ | ⟨rfl, hprefix⟩
  · obtain rfl : h.hbk = b := Option.some.inj (hlocal.hbk.symm.trans hb)
    exact hpass (classify_hotfix hprefix)
      (ht.compareAncestors hb hlocal.hbl hlocal.hbd ⟨_, le_rfl, hkl⟩ hld)
  · obtain rfl : h.hbl = b := Option.some.inj (hlocal.hbl.symm.trans hb)
    exact hpass (classify_feature hprefix)
      (ht.compareAncestors hb hlocal.hbk hlocal.hbd ⟨_, hkl, le_rfl⟩ (hkl.trans hld))
  · obtain rfl : h.hbd = b := Option.some.inj (hlocal.hbd.symm.trans hb)
    exact hpass (classify_majorfeature hprefix)
      (ht.compareAncestors hb hlocal.hbk hlocal.hbl ⟨_, hkl.trans hld, le_rfl⟩ (hkl.trans hld))

/-- The branch `bugfix/leds` made from answers, with a commit on top. -/
theorem new_branch_leds_pushable :
    newBranch "leds".toList [] [] ["l".toList, " bug".toList] =
      some ("bugfix/leds".toList, "hbl".toList) ∧
    readLine aheadRepo .empty
      ⟨"bugfix/leds".toList, .commit .right, "refs/heads/".toList ++ "bugfix/leds".toList, .zero⟩ =
      .ok .empty ∧
    newMr "bugfix/leds".toList = some "hbl".toList := by
  have hnew : newBranch "leds".toList [] [] ["l".toList, " bug".toList] =
      some ("bugfix/leds".toList, "hbl".toList) := by decide
  have htop : OnTop aheadHeads .base .right :=
    .commit .start (by decide) (by rintro ⟨⟩ <;> decide) (by decide) (by decide) (by decide)
  obtain ⟨hread, -, hmr⟩ := new_branch_pushable hnew (by decide) aheadHeads_areLocal rfl htop
    "bugfix/leds".toList .empty
  exact ⟨hnew, hread, hmr⟩

end Push

end TurrisBuild.Hook
