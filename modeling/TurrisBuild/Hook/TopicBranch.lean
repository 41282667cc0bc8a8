import TurrisBuild.Hook.ReleaseOrder

/-!
# Topic branches

A topic branch has to start from one of the release branches, and must not bring
along commits that only less stable ones have. The hook has merge bases printed
for the tip and compares them: one of the two other bases has to lie in the
history of the right one. For a branch on `hbl` the base with `hbk` always does.
-/

namespace TurrisBuild.Hook

open History

variable {C : Type*} [PartialOrder C]

/-- The local release branches of a repository. -/
structure Heads.AreLocal (h : Heads C) (repo : Repository C) : Prop where
  hbk : repo.revParse "hbk".toList = some h.hbk
  hbl : repo.revParse "hbl".toList = some h.hbl
  hbd : repo.revParse "hbd".toList = some h.hbd

/-- The names alone decide. -/
theorem Heads.AreLocal.congr {h : Heads C} {repo repo' : Repository C} (hlocal : h.AreLocal repo)
    (hparse : repo'.revParse = repo.revParse) : h.AreLocal repo' where
  hbk := hparse ▸ hlocal.hbk
  hbl := hparse ▸ hlocal.hbl
  hbd := hparse ▸ hlocal.hbd

/-- The line is for a branch `hotfix/*`. -/
def PushLine.IsHotfix (line : PushLine C) : Prop :=
  hasPrefixIn ["hotfix/"] (stripHeads line.remoteRef) = true

/-- The line is for a branch `feature/*`, `bugfix/*`, `refactor/*` or `hack/*`. -/
def PushLine.IsFeature (line : PushLine C) : Prop :=
  hasPrefixIn ["feature/", "bugfix/", "refactor/", "hack/"] (stripHeads line.remoteRef) = true

/-- Every commit of the first history that belongs to the second one belongs to
the third one. -/
def SharesWithin (t less more : C) : Prop := ∀ x ≤ t, x ≤ less → x ≤ more

/-- If the hook accepts the line that git writes, its tip brings no commit of a
less stable branch along. -/
def PushLine.Vetted [DecidableLE C] (line : PushLine C) (name : C → List Char) (t : C)
    (h : Heads C) (repo : Repository C) : Prop :=
  ∀ pushed pushed', hookLine repo pushed (line.text name) = .ok pushed' →
    (line.IsHotfix → SharesWithin t h.hbl h.hbk ∧ SharesWithin t h.hbd h.hbk) ∧
    (line.IsFeature → SharesWithin t h.hbd h.hbl)

/-! ### The comparison -/

omit [PartialOrder C] in
private theorem exists_of_hasPrefixIn {prefixes : List String} {name : List Char}
    (h : hasPrefixIn prefixes name = true) :
    ∃ p ∈ prefixes, ∃ rest, name = p.toList ++ rest := by
  obtain ⟨p, hp, hprefix⟩ := List.any_eq_true.mp h
  obtain ⟨rest, hrest⟩ := List.isPrefixOf_iff_prefix.mp hprefix
  exact ⟨p, hp, rest, hrest.symm⟩

/-- A hotfix is compared with `hbk`. -/
theorem classify_hotfix {name : List Char} (h : hasPrefixIn ["hotfix/"] name = true) :
    classify name = .topic "hbk".toList "hbl".toList "hbd".toList := by
  obtain ⟨p, hp, rest, rfl⟩ := exists_of_hasPrefixIn h
  obtain rfl := List.mem_singleton.mp hp
  rfl

/-- A feature is compared with `hbl`. -/
theorem classify_feature {name : List Char}
    (h : hasPrefixIn ["feature/", "bugfix/", "refactor/", "hack/"] name = true) :
    classify name = .topic "hbl".toList "hbk".toList "hbd".toList := by
  obtain ⟨p, hp, rest, rfl⟩ := exists_of_hasPrefixIn h
  simp only [List.mem_cons, List.not_mem_nil, or_false] at hp
  rcases hp with rfl | rfl | rfl | rfl <;> rfl

/-- A major feature is compared with `hbd`. -/
theorem classify_majorfeature {name : List Char}
    (h : hasPrefixIn ["majorfeature/", "fix/", "majorrefactor/", "majorhack/"] name = true) :
    classify name = .topic "hbd".toList "hbk".toList "hbl".toList := by
  obtain ⟨p, hp, rest, rfl⟩ := exists_of_hasPrefixIn h
  simp only [List.mem_cons, List.not_mem_nil, or_false] at hp
  rcases hp with rfl | rfl | rfl | rfl <;> rfl

variable [DecidableLE C]

/-- The comparison passes exactly when one of the other two bases is printed and
lies in the printed base of the right branch. -/
theorem compareAncestors_iff {repo : Repository C} {t c a b : C} {correct otherA otherB : List Char}
    (hc : repo.revParse correct = some c) (ha : repo.revParse otherA = some a)
    (hb : repo.revParse otherB = some b) :
    compareAncestors repo (.commit t) correct otherA otherB = true ↔
      ∃ m ∈ repo.mergeBase t c,
        (∃ n ∈ repo.mergeBase t a, n ≤ m) ∨ ∃ n ∈ repo.mergeBase t b, n ≤ m := by
  simp only [compareAncestors, Repository.mergeBaseWith, hc, ha, hb, Option.bind_some,
    Bool.or_eq_true]
  cases repo.mergeBase t c with
  | none => simp
  | some m => cases repo.mergeBase t a <;> cases repo.mergeBase t b <;> simp

/-- A line for a topic branch without further blanks passes exactly when the
comparison does, whatever was pushed before it. -/
theorem hookLine_topic {repo : Repository C} {name : C → List Char}
    (hnames : ObjectNames name repo.revParse) (pushed : PushedTexts) {line : PushLine C} {t : C}
    {correct otherA otherB : List Char} (hfull : line.FullName) (hfree : line.BlankFree)
    (hline : line.localSha1 = .commit t)
    (hclass : classify (stripHeads line.remoteRef) = .topic correct otherA otherB) :
    (∃ pushed', hookLine repo pushed (line.text name) = .ok pushed') ↔
      compareAncestors repo (.commit t) correct otherA otherB = true := by
  have hne : name t ≠ zeroSha1 := hnames.ne_zero t
  have hcompare : compareNames repo (name t) correct otherA otherB =
      compareAncestors repo (.commit t) correct otherA otherB := by
    simp [compareNames, compareAncestors, mergeBaseOf, hne, hnames.resolves]
  unfold hookLine
  rw [readRefs_text hnames hfull hfree]
  simp only [hline, Sha.text, hne, if_false, hclass, hcompare]
  cases compareAncestors repo (.commit t) correct otherA otherB <;> simp

/-! ### The tips that can pass -/

/-- A hotfix passes for some choice of best common ancestors exactly when one with
`hbl` lies in `hbk`. What the tip shares with `hbd` alone plays no role. -/
theorem hotfix_passes_iff {h : Heads C} {repo : Repository C} (hordered : h.Ordered)
    (hlocal : h.AreLocal repo) (t : C) :
    (∃ repo' : Repository C, repo'.revParse = repo.revParse ∧
      compareAncestors repo' (.commit t) "hbk".toList "hbl".toList "hbd".toList = true) ↔
      ∃ m, BestBase t h.hbl m ∧ m ≤ h.hbk := by
  obtain ⟨hkl, hld⟩ := hordered
  constructor
  · rintro ⟨repo', hparse, hpass⟩
    have hlocal' := hlocal.congr hparse
    rw [compareAncestors_iff hlocal'.hbk hlocal'.hbl hlocal'.hbd] at hpass
    obtain ⟨m, hm, ⟨n, hn, hnm⟩ | ⟨n, hn, hnm⟩⟩ := hpass
    · exact ⟨n, repo'.mergeBase_maximal hn, hnm.trans (repo'.mergeBase_maximal hm).1.2⟩
    · -- A base with `hbd` inside `hbk` is one with `hbl`.
      have hnk : n ≤ h.hbk := hnm.trans (repo'.mergeBase_maximal hm).1.2
      have hbest : BestBase t h.hbd n := repo'.mergeBase_maximal hn
      exact ⟨n, hbest.restrict hld (hnk.trans hkl), hnk⟩
  · rintro ⟨m, hm, hmk⟩
    have : DecidableEq C := decidableEqOfDecidableLE
    have hlocal' : h.AreLocal ((repo.printing hm).printing (hm.restrict hkl hmk)) :=
      hlocal.congr rfl
    refine ⟨(repo.printing hm).printing (hm.restrict hkl hmk), rfl,
        (compareAncestors_iff hlocal'.hbk hlocal'.hbl hlocal'.hbd).mpr
      ⟨m, ?_, .inl ⟨m, ?_, le_rfl⟩⟩⟩
    · simp [Repository.printing]
    · by_cases heq : h.hbl = h.hbk <;> simp [Repository.printing, heq]

/-- A feature passes for some choice of best common ancestors exactly when one
with `hbk` lies in one with `hbl`, or one with `hbd` lies in `hbl`. -/
theorem feature_passes_iff {h : Heads C} {repo : Repository C} (hordered : h.Ordered)
    (hlocal : h.AreLocal repo) (t : C) :
    (∃ repo' : Repository C, repo'.revParse = repo.revParse ∧
      compareAncestors repo' (.commit t) "hbl".toList "hbk".toList "hbd".toList = true) ↔
      (∃ k l, BestBase t h.hbk k ∧ BestBase t h.hbl l ∧ k ≤ l) ∨
        ∃ m, BestBase t h.hbd m ∧ m ≤ h.hbl := by
  obtain ⟨hkl, hld⟩ := hordered
  constructor
  · rintro ⟨repo', hparse, hpass⟩
    have hlocal' := hlocal.congr hparse
    rw [compareAncestors_iff hlocal'.hbl hlocal'.hbk hlocal'.hbd] at hpass
    obtain ⟨l, hl, ⟨n, hn, hnl⟩ | ⟨n, hn, hnl⟩⟩ := hpass
    · exact .inl ⟨n, l, repo'.mergeBase_maximal hn, repo'.mergeBase_maximal hl, hnl⟩
    · exact .inr ⟨n, repo'.mergeBase_maximal hn, hnl.trans (repo'.mergeBase_maximal hl).1.2⟩
  · have : DecidableEq C := decidableEqOfDecidableLE
    rintro (⟨k, l, hk, hl, hkl'⟩ | ⟨m, hm, hml⟩)
    · have hlocal' : h.AreLocal ((repo.printing hk).printing hl) := hlocal.congr rfl
      refine ⟨(repo.printing hk).printing hl, rfl,
        (compareAncestors_iff hlocal'.hbl hlocal'.hbk hlocal'.hbd).mpr
        ⟨l, ?_, .inl ?_⟩⟩
      · simp [Repository.printing]
      · -- With `hbk` and `hbl` at one commit both queries print the same base.
        by_cases heq : h.hbk = h.hbl
        · exact ⟨l, by simp [Repository.printing, heq], le_rfl⟩
        · exact ⟨k, by simp [Repository.printing, heq], hkl'⟩
    · have hlocal' : h.AreLocal ((repo.printing hm).printing (hm.restrict hld hml)) :=
        hlocal.congr rfl
      refine ⟨(repo.printing hm).printing (hm.restrict hld hml), rfl,
        (compareAncestors_iff hlocal'.hbl hlocal'.hbk hlocal'.hbd).mpr
        ⟨m, ?_, .inr ⟨m, ?_, le_rfl⟩⟩⟩
      · simp [Repository.printing]
      · by_cases heq : h.hbd = h.hbl <;> simp [Repository.printing, heq]

/-- A hotfix is judged rightly: it shares with `hbd` only what `hbk` has, or every
best common ancestor with `hbl` is outside of `hbk`. -/
def Heads.JudgesHotfix (h : Heads C) (t : C) : Prop :=
  SharesWithin t h.hbd h.hbk ∨ ∀ m, BestBase t h.hbl m → ¬m ≤ h.hbk

/-- A feature is judged rightly: it shares with `hbd` only what `hbl` has, or no
best common ancestor with `hbk` is in one with `hbl` and none with `hbd` in `hbl`. -/
def Heads.JudgesFeature (h : Heads C) (t : C) : Prop :=
  SharesWithin t h.hbd h.hbl ∨
    (∀ k l, BestBase t h.hbk k → BestBase t h.hbl l → ¬k ≤ l) ∧
      ∀ m, BestBase t h.hbd m → ¬m ≤ h.hbl

/-- **Topic branches.** Whatever best common ancestors are printed, a line for a
topic branch whose local reference contains no blank smuggles nothing past the
hook exactly when its tip is one that the comparison judges rightly. -/
theorem topic_vetted_iff {h : Heads C} {repo : Repository C} (hordered : h.Ordered)
    (hlocal : h.AreLocal repo) {name : C → List Char} (hnames : ObjectNames name repo.revParse)
    {line : PushLine C} {t : C} (hline : line.localSha1 = .commit t) (hfull : line.FullName)
    (hfree : line.BlankFree) :
    (∀ repo' : Repository C, repo'.revParse = repo.revParse → line.Vetted name t h repo') ↔
      (line.IsHotfix → h.JudgesHotfix t) ∧ (line.IsFeature → h.JudgesFeature t) := by
  constructor
  · intro hvetted
    refine ⟨fun hhotfix => or_iff_not_imp_right.mpr fun hsome => ?_,
      fun hfeature => or_iff_not_imp_right.mpr fun hsome => ?_⟩
    · push Not at hsome
      obtain ⟨repo', hparse, hpass⟩ := (hotfix_passes_iff hordered hlocal t).mpr hsome
      obtain ⟨pushed', hok⟩ := (hookLine_topic (hparse ▸ hnames) ⟨[], [], []⟩ hfull hfree
        hline (classify_hotfix hhotfix)).mpr hpass
      exact ((hvetted repo' hparse _ pushed' hok).1 hhotfix).2
    · have hpasses := (feature_passes_iff hordered hlocal t).mpr (by
        by_contra hnone
        push Not at hnone
        exact hsome ⟨fun k l hk hl => hnone.1 k l hk hl, fun m hm => hnone.2 m hm⟩)
      obtain ⟨repo', hparse, hpass⟩ := hpasses
      obtain ⟨pushed', hok⟩ := (hookLine_topic (hparse ▸ hnames) ⟨[], [], []⟩ hfull hfree
        hline (classify_feature hfeature)).mpr hpass
      exact (hvetted repo' hparse _ pushed' hok).2 hfeature
  · rintro ⟨hhotfix, hfeature⟩ repo' hparse pushed pushed' hok
    have hnames' : ObjectNames name repo'.revParse := hparse ▸ hnames
    refine ⟨fun hline' => ?_, fun hline' => ?_⟩
    · have hpass := (hookLine_topic hnames' pushed hfull hfree hline (classify_hotfix hline')).mp
        ⟨pushed', hok⟩
      obtain ⟨m, hm, hmk⟩ := (hotfix_passes_iff hordered hlocal t).mp ⟨repo', hparse, hpass⟩
      have hshares : SharesWithin t h.hbd h.hbk :=
        (hhotfix hline').resolve_right fun hnone => hnone m hm hmk
      exact ⟨fun x hx hxl => hshares x hx (hxl.trans hordered.2), hshares⟩
    · have hpass := (hookLine_topic hnames' pushed hfull hfree hline (classify_feature hline')).mp
        ⟨pushed', hok⟩
      refine (hfeature hline').resolve_right fun hnone => ?_
      obtain ⟨k, l, hk, hl, hkl⟩ | ⟨m, hm, hml⟩ :=
        (feature_passes_iff hordered hlocal t).mp ⟨repo', hparse, hpass⟩
      · exact hnone.1 k l hk hl hkl
      · exact hnone.2 m hm hml

/-- Development has moved on, the two more stable branches have not. -/
def aheadHeads : Heads Diamond := ⟨.base, .base, .left⟩

/-- A repository with these branches. -/
def aheadRepo : Repository Diamond :=
  Repository.ofInf (diamondParse fun name => if name = "hbd".toList then .left else .base)

/-- The line of a new topic branch. -/
def topicLine (ref : List Char) (t : Diamond) : PushLine Diamond :=
  ⟨ref, .commit t, ref, .zero⟩

/-- They are the local ones there. -/
theorem aheadHeads_areLocal : aheadHeads.AreLocal aheadRepo := ⟨rfl, rfl, rfl⟩

/-- A hotfix at the tip of `hbk` smuggles nothing. -/
theorem hotfix_on_hbk_vetted :
    aheadHeads.Ordered ∧
    (topicLine "refs/heads/hotfix/ssl".toList .base).Vetted diamondName .base aheadHeads
      aheadRepo := by
  have hordered : aheadHeads.Ordered := by decide
  have hfree : (topicLine "refs/heads/hotfix/ssl".toList .base).BlankFree :=
    (by decide : OneWord "refs/heads/hotfix/ssl".toList)
  have hfull : (topicLine "refs/heads/hotfix/ssl".toList .base).FullName :=
    ⟨(by decide : "refs/".toList <+: "refs/heads/hotfix/ssl".toList), hfree⟩
  refine ⟨hordered, (topic_vetted_iff hordered aheadHeads_areLocal (diamondNames _) rfl hfull
    hfree).mpr
    ⟨fun _ => .inl fun x hx _ => hx, fun _ => .inl fun x hx _ => hx⟩ aheadRepo rfl⟩

private theorem topicLine_passes {ref : List Char} (hword : OneWord ref)
    (hfull : "refs/".toList <+: ref)
    (hread : readLine aheadRepo .empty (topicLine ref .left) = .ok .empty) :
    hookLine aheadRepo (Pushed.empty.texts diamondName) ((topicLine ref .left).text diamondName) =
      .ok (Pushed.empty.texts diamondName) := by
  have hnames : ObjectNames diamondName aheadRepo.revParse := diamondNames _
  have hfree : (topicLine ref .left).BlankFree := hword
  rw [hookLine_text hnames (show (topicLine ref .left).FullName from ⟨hfull, hword⟩) hfree, hread]
  rfl

/-- A hotfix and a feature at the tip of `hbd` pass, although `hbk` and `hbl` do
not have that commit. -/
theorem development_passes_as_hotfix :
    aheadHeads.Ordered ∧ aheadHeads.AreLocal aheadRepo ∧
    ¬(topicLine "refs/heads/hotfix/ssl".toList .left).Vetted diamondName .left aheadHeads
      aheadRepo ∧
    ¬(topicLine "refs/heads/feature/ssl".toList .left).Vetted diamondName .left aheadHeads
      aheadRepo := by
  have hhotfix := topicLine_passes (by decide : OneWord "refs/heads/hotfix/ssl".toList)
    (by decide) rfl
  have hfeature := topicLine_passes (by decide : OneWord "refs/heads/feature/ssl".toList)
    (by decide) rfl
  refine ⟨by decide, aheadHeads_areLocal, fun hvetted => ?_, fun hvetted => ?_⟩
  · have hshares := ((hvetted _ _ hhotfix).1 rfl).2 .left le_rfl le_rfl
    exact absurd hshares (by decide)
  · have hshares := (hvetted _ _ hfeature).2 rfl .left le_rfl le_rfl
    exact absurd hshares (by decide)

end TurrisBuild.Hook
