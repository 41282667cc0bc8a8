import Mathlib.Data.List.Forall2
import TurrisBuild.Lib.PackageVersion

/-!
# The versions of packages that follow a branch

`autopkg-branch.mk` makes the version of a package from the nearest tag of its branch and
the number of commits since. It puts `.9999` behind the tag, to stay apart from the
versions of the repository, and without a tag the version is `9999` alone. Both numbers
take part in the comparison of versions when a new tag comes.
-/

namespace TurrisBuild.AutopkgBranch

open PackageVersion

/-- A tag with a version, with or without a `v` before it. -/
structure VersionTag where
  leadingV : Bool
  version : Dotted

def VersionTag.name (tag : VersionTag) : List Char :=
  if tag.leadingV then 'v' :: tag.version.text else tag.version.text

/-- The commits of a branch without merges, the newest one first. -/
abbrev History := List (Option VersionTag)

/-- `git describe --abbrev=0 --tags`, which prints nothing without a tag. -/
def describe (history : History) : List Char :=
  (history.findSome? id).elim [] VersionTag.name

/-- `git rev-list --count` from a tag on. -/
def countSince (history : History) (name : List Char) : ℕ :=
  (history.takeWhile fun tag => tag.map VersionTag.name != some name).length

/-- `$(PKG_VERSION:v%=%)` -/
def withoutV : List Char → List Char
  | 'v' :: version => version
  | version => version

/-- `PKG_VERSION` -/
def pkgVersion (history : History) : List Char :=
  if (describe history).isEmpty then "9999".toList
  else withoutV (describe history) ++ ".9999".toList

/-- `PKG_RELEASE` -/
def pkgRelease (history : History) : ℕ :=
  if (describe history).isEmpty then history.length
  else countSince history (describe history)

/-- `$(PKG_VERSION)-$(PKG_RELEASE)` -/
def fullVersion (history : History) : List Char :=
  pkgVersion history ++ '-' :: Nat.toDigits 10 (pkgRelease history)

/-- The versions of the tags increase along the history. -/
def Increasing (history : History) : Prop :=
  (history.filterMap id).Pairwise fun newer older =>
    compare older.version.values newer.version.values = .lt

/-- A history and what it has become: there are more commits, and some of the old commits
have got a tag. -/
structure Extension where
  old : History
  added : History
  retagged : History
  keeps : List.Forall₂ (fun before after => before = none ∨ after = before) old retagged
  increasing : Increasing (added ++ retagged)

def Extension.new (e : Extension) : History := e.added ++ e.retagged

/-- The version does not go back, and it goes on when there are new commits. -/
def Extension.NeverBack (e : Extension) : Prop :=
  compareVersions (fullVersion e.old) (fullVersion e.new) ≠ .gt ∧
    (e.added ≠ [] → compareVersions (fullVersion e.old) (fullVersion e.new) = .lt)

/-- The numbers in the nearest tag, none without a tag. -/
def nearest (history : History) : List ℕ :=
  (history.findSome? id).elim [] fun tag => tag.version.values

/-- When the numbers of the nearest tag begin with those of the old nearest tag, the next
one of them is not below 9999. -/
def Extension.NotBelow (e : Extension) : Prop :=
  ∀ n rest, nearest e.new = nearest e.old ++ n :: rest → 9999 ≤ n

/-! ### The version of one history -/

private theorem Dotted.text_head (v : Dotted) : ∃ c s, v.text = c :: s ∧ c.isDigit = true := by
  obtain ⟨c, s, hdigits⟩ := List.exists_cons_of_ne_nil v.first.digits_ne
  refine ⟨c, _, by rw [Dotted.text, hdigits, List.cons_append], ?_⟩
  exact List.all_eq_true.mp v.first.isDigit c (by rw [hdigits]; exact List.mem_cons_self)

private theorem withoutV_name (tag : VersionTag) : withoutV tag.name = tag.version.text := by
  obtain ⟨c, s, htext, hdigit⟩ := Dotted.text_head tag.version
  rw [VersionTag.name]
  split
  · rfl
  · rw [htext, withoutV.eq_2]
    intro version heq
    rw [(List.cons.inj heq).1] at hdigit
    contradiction

/-- A tag has a name. -/
theorem name_ne_nil (tag : VersionTag) : tag.name ≠ [] := by
  obtain ⟨c, s, htext, -⟩ := Dotted.text_head tag.version
  rw [VersionTag.name, htext]
  split <;> simp

/-- The number of commits since the nearest tag, all of them without one. -/
def sinceTag (history : History) : ℕ := (history.takeWhile Option.isNone).length

private theorem pkgRelease_eq (history : History) : pkgRelease history = sinceTag history := by
  induction history with
  | nil => rfl
  | cons tag history ih =>
    cases tag with
    | none =>
      have hdescribe : describe (none :: history) = describe history := rfl
      have hcount : pkgRelease (none :: history) = pkgRelease history + 1 := by
        rw [pkgRelease, pkgRelease, hdescribe]
        split
        · rfl
        · rfl
      rw [hcount, ih]
      rfl
    | some tag =>
      have hdescribe : describe (some tag :: history) = tag.name := rfl
      rw [pkgRelease, hdescribe, if_neg (by simpa using name_ne_nil tag), countSince,
        List.takeWhile_cons_of_neg (by simp)]
      rfl

/-- The number behind the tag. -/
def suffix : Number where
  digits := "9999".toList
  digits_ne := by decide
  isDigit := by decide

private theorem exists_pkgVersion (history : History) :
    ∃ v : Dotted, pkgVersion history = v.text ∧ v.values = nearest history ++ [9999] := by
  induction history with
  | nil => exact ⟨⟨suffix, []⟩, rfl, rfl⟩
  | cons tag history ih =>
    cases tag with
    | none => exact ih
    | some tag =>
      have hdescribe : describe (some tag :: history) = tag.name := rfl
      refine ⟨tag.version.append suffix, ?_, Dotted.values_append tag.version suffix⟩
      rw [pkgVersion, hdescribe, if_neg (by simpa using name_ne_nil tag), withoutV_name,
        Dotted.text_append]
      rfl

private theorem compare_fullVersion (history history' : History) :
    compareVersions (fullVersion history) (fullVersion history') =
      (compare (nearest history ++ [9999]) (nearest history' ++ [9999])).then
        (compare (sinceTag history) (sinceTag history')) := by
  obtain ⟨v, hv, hvalues⟩ := exists_pkgVersion history
  obtain ⟨w, hw, hvalues'⟩ := exists_pkgVersion history'
  rw [fullVersion, fullVersion, hv, hw, compareVersions_text, hvalues, hvalues', pkgRelease_eq,
    pkgRelease_eq]

/-! ### What has become of a history -/

private theorem nearest_none_cons (history : History) :
    nearest (none :: history) = nearest history := rfl

private theorem sinceTag_none_cons (history : History) :
    sinceTag (none :: history) = sinceTag history + 1 := rfl

/-- The nearest tag is smaller than each one that the history gets later. -/
theorem compare_nearest {history : History} {tag : VersionTag}
    (h : ∀ older ∈ history.filterMap id,
      compare older.version.values tag.version.values = .lt) :
    compare (nearest history) tag.version.values = .lt := by
  induction history with
  | nil => rfl
  | cons older history ih =>
    cases older with
    | none => exact ih h
    | some older => exact h older List.mem_cons_self

section Keeps

variable {old retagged : History}
  (hkeeps : List.Forall₂ (fun before after => before = none ∨ after = before) old retagged)

include hkeeps

/-- Tags are not taken away. -/
theorem mem_retagged {tag : VersionTag} (h : tag ∈ old.filterMap id) :
    tag ∈ retagged.filterMap id := by
  induction hkeeps with
  | nil => exact h
  | @cons before after old retagged hhead _ ih =>
    cases before with
    | none =>
      have htail := ih h
      cases after with
      | none => exact htail
      | some _ => exact List.mem_cons_of_mem _ htail
    | some older =>
      obtain rfl : after = some older := hhead.resolve_left (Option.some_ne_none older)
      rcases List.mem_cons.mp h with rfl | h
      · exact List.mem_cons_self
      · exact List.mem_cons_of_mem _ (ih h)

/-- Tags on old commits leave the nearest one and its distance, or bring a greater one. -/
theorem nearest_retagged (hincreasing : Increasing retagged) :
    (nearest retagged = nearest old ∧ sinceTag retagged = sinceTag old) ∨
      compare (nearest old) (nearest retagged) = .lt := by
  induction hkeeps with
  | nil => exact .inl ⟨rfl, rfl⟩
  | @cons before after old retagged hhead hkeeps ih =>
    cases before with
    | none =>
      cases after with
      | none =>
        rw [nearest_none_cons, nearest_none_cons, sinceTag_none_cons, sinceTag_none_cons]
        exact (ih hincreasing).imp_left fun h => ⟨h.1, congrArg (· + 1) h.2⟩
      | some tag =>
        refine .inr (compare_nearest fun older holder => ?_)
        exact List.rel_of_pairwise_cons hincreasing (mem_retagged hkeeps holder)
    | some older =>
      obtain rfl : after = some older := hhead.resolve_left (Option.some_ne_none older)
      exact .inl ⟨rfl, rfl⟩

/-- New commits leave the nearest tag and make it more distant, or bring a greater one. -/
theorem nearest_added (added : History) (hincreasing : Increasing (added ++ retagged)) :
    (nearest (added ++ retagged) = nearest old ∧
        sinceTag (added ++ retagged) = added.length + sinceTag old) ∨
      compare (nearest old) (nearest (added ++ retagged)) = .lt := by
  induction added with
  | nil =>
    rw [List.nil_append, List.length_nil, Nat.zero_add]
    exact nearest_retagged hkeeps hincreasing
  | cons tag added ih =>
    cases tag with
    | none =>
      rw [List.cons_append, nearest_none_cons, sinceTag_none_cons, List.length_cons,
        Nat.add_right_comm]
      exact (ih hincreasing).imp_left fun h => ⟨h.1, congrArg (· + 1) h.2⟩
    | some tag =>
      refine .inr (compare_nearest fun older holder => ?_)
      have hmem : older ∈ (added ++ retagged).filterMap id := by
        rw [List.filterMap_append]
        exact List.mem_append_right _ (mem_retagged hkeeps holder)
      exact List.rel_of_pairwise_cons hincreasing hmem

end Keeps

/-! ### The suffix in the order -/

/-- A greater version with the same number behind it stays greater unless it goes on with a
smaller number than this one. -/
theorem compare_append_singleton {ns ms : List ℕ} (h : compare ns ms = .lt) (k : ℕ) :
    compare (ns ++ [k]) (ms ++ [k]) ≠ .eq ∧
      (compare (ns ++ [k]) (ms ++ [k]) = .lt ↔ ∀ n rest, ms = ns ++ n :: rest → k ≤ n) := by
  induction ns generalizing ms with
  | nil =>
    cases ms with
    | nil => cases h
    | cons m ms =>
      have hend : compare ([] : List ℕ) (ms ++ [k]) = .lt := by cases ms <;> rfl
      have hnext : (∀ n rest, m :: ms = [] ++ n :: rest → k ≤ n) ↔ k ≤ m := by
        constructor
        · exact fun hle => hle m ms rfl
        · rintro hle n rest heq
          rwa [← (List.cons.inj heq).1]
      rw [hnext, List.nil_append, List.cons_append, List.compare_cons_cons, hend]
      rcases lt_trichotomy k m with hlt | rfl | hgt
      · rw [Nat.compare_eq_lt.mpr hlt]
        exact ⟨by decide, iff_of_true rfl hlt.le⟩
      · rw [Nat.compare_eq_eq.mpr rfl]
        exact ⟨by decide, iff_of_true rfl le_rfl⟩
      · rw [Nat.compare_eq_gt.mpr hgt]
        exact ⟨by decide, iff_of_false (by decide) hgt.not_ge⟩
  | cons x ns ih =>
    cases ms with
    | nil => cases h
    | cons y ms =>
      rw [List.compare_cons_cons] at h
      rw [List.cons_append, List.cons_append, List.compare_cons_cons]
      rcases lt_trichotomy x y with hlt | rfl | hgt
      · rw [Nat.compare_eq_lt.mpr hlt]
        refine ⟨by simp, iff_of_true rfl fun n rest heq => ?_⟩
        exact absurd (List.cons.inj heq).1 hlt.ne'
      · rw [Nat.compare_eq_eq.mpr rfl] at h ⊢
        have hnext : (∀ n rest, x :: ms = x :: ns ++ n :: rest → k ≤ n) ↔
            ∀ n rest, ms = ns ++ n :: rest → k ≤ n := by simp
        rw [hnext]
        exact ih h
      · rw [Nat.compare_eq_gt.mpr hgt] at h
        cases h

/-- **Versions never go backwards.** For an extension of a history this holds exactly when
the numbers of the nearest tag do not go on behind those of the old one with a number
below 9999, where no tag is no numbers. -/
theorem neverBack_iff (e : Extension) : e.NeverBack ↔ e.NotBelow := by
  rw [Extension.NeverBack, compare_fullVersion, Extension.NotBelow]
  rcases nearest_added e.keeps e.added e.increasing with ⟨hnearest, hsince⟩ | hlt
  · -- The same tag, and the number of commits decides.
    have hself : compare (nearest e.old ++ [9999]) (nearest e.old ++ [9999]) = .eq :=
      Std.ReflOrd.compare_self
    have hnot : ∀ n rest, nearest e.old ≠ nearest e.old ++ n :: rest := by
      intro n rest heq
      simpa using congrArg List.length heq
    rw [Extension.new, hnearest, hself, hsince]
    refine iff_of_true ⟨?_, fun hadded => ?_⟩ fun n rest heq => absurd heq (hnot n rest)
    · rw [Ordering.then, Ne, Nat.compare_eq_gt]
      omega
    · have hpos := List.length_pos_iff.mpr hadded
      rw [Ordering.then, Nat.compare_eq_lt]
      omega
  · -- A greater tag, and the suffix may stand against one of its numbers.
    obtain ⟨hne, hiff⟩ := compare_append_singleton hlt 9999
    rw [← Extension.new] at hne hiff
    rw [← hiff]
    cases hcompare : compare (nearest e.old ++ [9999]) (nearest e.new ++ [9999]) with
    | lt => exact iff_of_true ⟨by simp, fun _ => rfl⟩ rfl
    | eq => exact absurd hcompare hne
    | gt => exact iff_of_false (fun h => h.1 rfl) (by simp)

/-- The tag `v` with these numbers. -/
private def tagV (first : ℕ) (rest : List ℕ) : VersionTag :=
  ⟨true, .ofNat first, rest.map .ofNat⟩

/-- The first tag of a branch, on a new commit. -/
private def firstTag : Extension where
  old := [none]
  added := [some (tagV 1 [0])]
  retagged := [none]
  keeps := .cons (.inl rfl) .nil
  increasing := by simp [Increasing]

/-- A tag that goes on where the one before ends. -/
private def longerTag : Extension where
  old := [some (tagV 1 [0])]
  added := [some (tagV 1 [0, 1])]
  retagged := [some (tagV 1 [0])]
  keeps := .cons (.inr rfl) .nil
  increasing := by
    refine List.pairwise_cons.mpr ⟨fun older h => ?_, List.pairwise_singleton _ _⟩
    rw [List.mem_singleton.mp h]
    decide

/-- Versions go backwards with the first tag, and from `v1.0` to `v1.0.1`. -/
theorem first_tag_goes_back :
    (fullVersion firstTag.old = "9999-1".toList ∧
      fullVersion firstTag.new = "1.0.9999-0".toList ∧ ¬firstTag.NeverBack) ∧
    (fullVersion longerTag.old = "1.0.9999-0".toList ∧
      fullVersion longerTag.new = "1.0.1.9999-0".toList ∧ ¬longerTag.NeverBack) :=
  ⟨⟨by decide, by decide, fun h => absurd h.1 (by decide)⟩,
    ⟨by decide, by decide, fun h => absurd h.1 (by decide)⟩⟩

end TurrisBuild.AutopkgBranch
