import Mathlib.Data.Bool.AllAny
import TurrisBuild.Lib.Shell
import TurrisBuild.Release.FeedsConf

/-!
# The algebra of feed urls

The helpers of `helpers/generate_common.sh` cut a feed url at its last mark, but
`feed_ref_is_branch` looks for a semicolon anywhere in it. Each of them answers with
`echo`, so that a part which is an option of `echo`, or ends in a newline, is lost
on the way to the caller.
-/

namespace TurrisBuild.Release

open Shell

/-- `$(feed_url "$url")` -/
def callFeedUrl (url : List Char) : List Char := printed (feedUrl url)

/-- `$(feed_ref "$url")` -/
def callFeedRef (url : List Char) : List Char := printed (feedRef url false)

/-- `$(feed_url_replace "$old_url" "$new")` -/
def callFeedUrlReplace (oldUrl new : List Char) : List Char :=
  printed <|
    if oldUrl.any isRefMark then
      if feedRefIsBranch oldUrl then new ++ ';' :: callFeedRef oldUrl
      else new ++ '^' :: callFeedRef oldUrl
    else new

/-- The laws of the helpers for a feed url and a url to put in its place. -/
structure UrlAlgebra (u n : List Char) : Prop where
  /-- A url with a mark is its address, one mark and its reference, and the mark says
  whether that is a branch. -/
  split : u.any isRefMark = true → ∃ mark, isRefMark mark = true ∧
    u = callFeedUrl u ++ mark :: callFeedRef u ∧ (feedRefIsBranch u = true ↔ mark = ';')
  url : callFeedUrl (callFeedUrlReplace u n) = n
  ref : callFeedRef (callFeedUrlReplace u n) = callFeedRef u
  isBranch : feedRefIsBranch (callFeedUrlReplace u n) = feedRefIsBranch u
  twice : ∀ n', (∀ c ∈ n', isRefMark c = false) →
    callFeedUrlReplace (callFeedUrlReplace u n) n' = callFeedUrlReplace u n'

/-- The mark in front of the reference. -/
def lastMark (url : List Char) : Option Char := url.reverse.find? isRefMark

/-- The parts of the url and the new url come back from `echo` as they are, and a url
with a semicolon has it in front of the reference. -/
structure ProperUrl (u n : List Char) : Prop where
  new : PrintsItself n
  parts : u.any isRefMark = true → PrintsItself (feedUrl u) ∧ PrintsItself (feedRef u false)
  mark : ';' ∈ u → lastMark u = some ';'

/-- A url with a mark has a last one. -/
theorem exists_lastMark {u : List Char} (hu : u.any isRefMark = true) :
    ∃ address mark r, u = address ++ mark :: r ∧ isRefMark mark = true ∧
      ∀ c ∈ r, isRefMark c = false := by
  induction u with
  | nil => cases hu
  | cons c u ih =>
    by_cases htail : u.any isRefMark = true
    · obtain ⟨address, mark, r, rfl, hmark, hr⟩ := ih htail
      exact ⟨c :: address, mark, r, rfl, hmark, hr⟩
    · have hc : isRefMark c = true := by simpa [htail] using hu
      exact ⟨[], c, u, rfl, hc, by simpa using htail⟩

private theorem lastMark_append {address r : List Char} {mark : Char}
    (hmark : isRefMark mark = true)
    (hr : ∀ c ∈ r, isRefMark c = false) : lastMark (address ++ mark :: r) = some mark := by
  have hnone : r.reverse.find? isRefMark = none := by simpa using hr
  simp [lastMark, List.find?_append, hnone, hmark]

private theorem noMark_printed {s : List Char} (hs : ∀ c ∈ s, isRefMark c = false) :
    ∀ c ∈ printed s, isRefMark c = false :=
  fun c hc => hs c ((printed_prefix_text s).subset hc)

private theorem rdropWhile_printed (s : List Char) :
    (printed s).rdropWhile (· == '\n') = printed s := by
  rw [printed_eq]
  split
  · exact List.rdropWhile_nil _
  · exact List.rdropWhile_idempotent _ _

/-- Replacing the address of a url with a reference keeps the reference as it was
printed, behind a mark for its kind. -/
theorem callFeedUrlReplace_mark {address r : List Char} {mark : Char}
    (hmark : isRefMark mark = true) (hr : ∀ c ∈ r, isRefMark c = false) (n : List Char) :
    callFeedUrlReplace (address ++ mark :: r) n =
      n ++ (if ';' ∈ address ++ mark :: r then ';' else '^') :: printed r := by
  have hprint (c : Char) (hc : isRefMark c = true) :
      printed (n ++ c :: printed r) = n ++ c :: printed r := by
    rw [printed_append_cons, rdropWhile_printed]
    rintro hmem
    simp only [List.mem_cons, List.not_mem_nil, or_false] at hmem
    rcases hmem with rfl | rfl | rfl | rfl | rfl <;> cases hc
  rw [callFeedUrlReplace, if_pos (any_mark hmark), callFeedRef, feedRef_mark hmark hr,
    feedRefIsBranch, List.contains_eq_mem]
  simp only [decide_eq_true_eq]
  split
  · exact hprint ';' rfl
  · exact hprint '^' rfl

/-- A url without a reference is replaced as a whole. -/
theorem callFeedUrlReplace_plain {u : List Char} (hu : u.any isRefMark = false) (n : List Char) :
    callFeedUrlReplace u n = printed n := by
  rw [callFeedUrlReplace, hu, if_neg Bool.false_ne_true]

private theorem printsItself_of_printed_printed {s : List Char} (hs : printed (printed s) = s) :
    PrintsItself s := by
  rw [← printed_eq_self_iff]
  refine (printed_prefix_text s).eq_of_length (le_antisymm (printed_prefix_text s).length_le ?_)
  have hle := (printed_prefix_text (printed s)).length_le
  rwa [hs] at hle

/-- The parts of a url make it up only if both are printed as they are. -/
private theorem split_iff {address r : List Char} {mark mark' : Char} :
    address ++ mark :: r = printed address ++ mark' :: printed r ↔
      PrintsItself address ∧ PrintsItself r ∧ mark = mark' := by
  rw [← printed_eq_self_iff, ← printed_eq_self_iff]
  constructor
  · intro heq
    have hlength := congrArg List.length heq
    have haddress := (printed_prefix_text address).length_le
    have hr := (printed_prefix_text r).length_le
    simp only [List.length_append, List.length_cons] at hlength
    have hleft : printed address = address :=
      (printed_prefix_text address).eq_of_length (by omega)
    have hright : printed r = r := (printed_prefix_text r).eq_of_length (by omega)
    rw [hleft, hright] at heq
    exact ⟨hleft, hright, by simpa using heq⟩
  · rintro ⟨haddress, hr, rfl⟩
    rw [haddress, hr]

/-- Where only the last mark can be a semicolon, the replaced url has the same mark. -/
private theorem kind_eq {address r : List Char} {mark : Char} (hmark : isRefMark mark = true)
    (hlast : ';' ∈ address ++ mark :: r → mark = ';') :
    (if ';' ∈ address ++ mark :: r then ';' else '^') = mark := by
  split
  next hmem => exact (hlast hmem).symm
  next hmem =>
    have hne : mark ≠ ';' := by
      rintro rfl
      simp at hmem
    have hcaret : mark = '^' := by simpa [isRefMark, hne] using hmark
    exact hcaret.symm

section Marked

variable {address r n : List Char} {mark : Char} (hmark : isRefMark mark = true)
  (hr : ∀ c ∈ r, isRefMark c = false)

include hmark hr

/-- The laws for a url with a reference. -/
private theorem urlAlgebra_mark_iff (hn : ∀ c ∈ n, isRefMark c = false) :
    UrlAlgebra (address ++ mark :: r) n ↔
      PrintsItself n ∧ (PrintsItself address ∧ PrintsItself r) ∧
        (';' ∈ address ++ mark :: r → mark = ';') := by
  have hreplace : ∀ n, callFeedUrlReplace (address ++ mark :: r) n =
      n ++ (if ';' ∈ address ++ mark :: r then ';' else '^') :: printed r :=
    callFeedUrlReplace_mark hmark hr
  have hnew : isRefMark (if ';' ∈ address ++ mark :: r then ';' else '^') = true := by
    split <;> rfl
  have hprinted := noMark_printed hr
  constructor
  · intro h
    obtain ⟨mark', -, hsplit, hbranch⟩ := h.split (any_mark hmark)
    have hurl := h.url
    rw [callFeedUrl, callFeedRef, feedUrl_mark hmark hr, feedRef_mark hmark hr, split_iff] at hsplit
    obtain ⟨haddress, href, rfl⟩ := hsplit
    rw [hreplace, callFeedUrl, feedUrl_mark hnew hprinted, printed_eq_self_iff] at hurl
    refine ⟨hurl, ⟨haddress, href⟩, fun hmem => hbranch.mp ?_⟩
    simpa [feedRefIsBranch] using hmem
  · rintro ⟨hself, ⟨haddress, href⟩, hbranch⟩
    have hr' : printed r = r := printed_eq_self_iff.mpr href
    have hkind := kind_eq hmark hbranch
    simp only [hkind, hr'] at hreplace
    refine ⟨fun _ => ⟨mark, hmark, ?_, ?_⟩, ?_, ?_, ?_, fun n' hn' => ?_⟩
    · rw [callFeedUrl, callFeedRef, feedUrl_mark hmark hr, feedRef_mark hmark hr, split_iff]
      exact ⟨haddress, href, rfl⟩
    · constructor
      · intro h
        exact hbranch (by simpa [feedRefIsBranch] using h)
      · rintro rfl
        simp [feedRefIsBranch]
    · rw [hreplace, callFeedUrl, feedUrl_mark hmark hr, printed_eq_self_iff.mpr hself]
    · rw [hreplace, callFeedRef, callFeedRef, feedRef_mark hmark hr, feedRef_mark hmark hr]
    · rw [hreplace, feedRefIsBranch_mark hn hr]
      have hiff : mark = ';' ↔ ';' ∈ address ++ mark :: r := ⟨by rintro rfl; simp, hbranch⟩
      simp [feedRefIsBranch, hiff]
    · have hlast : ';' ∈ n ++ mark :: r → mark = ';' := by
        intro hmem
        have hsemicolon : feedRefIsBranch (n ++ mark :: r) = true := by
          simpa [feedRefIsBranch] using hmem
        rw [feedRefIsBranch_mark hn hr] at hsemicolon
        exact of_decide_eq_true hsemicolon
      rw [hreplace, hreplace, callFeedUrlReplace_mark hmark hr, kind_eq hmark hlast, hr']

end Marked

/-- The laws for a url without a reference. -/
private theorem urlAlgebra_plain_iff {u n : List Char} (hu : u.any isRefMark = false)
    (hn : ∀ c ∈ n, isRefMark c = false) : UrlAlgebra u n ↔ PrintsItself n := by
  have hplain : ∀ c ∈ printed n, isRefMark c = false := noMark_printed hn
  have hany : (printed n).any isRefMark = false := any_plain hplain
  constructor
  · intro h
    have hurl := h.url
    rw [callFeedUrlReplace_plain hu, callFeedUrl, feedUrl_plain hplain] at hurl
    exact printsItself_of_printed_printed hurl
  · intro hself
    have hn' : printed n = n := printed_eq_self_iff.mpr hself
    have hsemicolon {l : List Char} (hl : l.any isRefMark = false) :
        feedRefIsBranch l = false := by
      simp only [List.any_eq_false, Bool.not_eq_true] at hl
      have hnot : ';' ∉ l := fun hmem => absurd (hl _ hmem) (by decide)
      simpa [feedRefIsBranch] using hnot
    refine ⟨fun h => absurd h (by simp [hu]), ?_, ?_, ?_, fun n' _ => ?_⟩
    · rw [callFeedUrlReplace_plain hu, callFeedUrl, feedUrl_plain hplain, hn', hn']
    · rw [callFeedUrlReplace_plain hu, callFeedRef, callFeedRef, feedRef, feedRef, hany, hu]
      rfl
    · rw [callFeedUrlReplace_plain hu, hsemicolon hany, hsemicolon hu]
    · rw [callFeedUrlReplace_plain hu, callFeedUrlReplace_plain hany, callFeedUrlReplace_plain hu]

/-- **Feed urls.** For every url and every replacement without a mark, the helpers
take the url apart and put it together again exactly when `echo` gives back the
replacement and the parts, and a url with a semicolon has it in front of its
reference. -/
theorem feed_url_algebra_iff {u n : List Char} (hn : ∀ c ∈ n, isRefMark c = false) :
    UrlAlgebra u n ↔ ProperUrl u n := by
  by_cases hu : u.any isRefMark = true
  · obtain ⟨address, mark, r, rfl, hmark, hr⟩ := exists_lastMark hu
    rw [urlAlgebra_mark_iff hmark hr hn]
    constructor
    · rintro ⟨hnew, hparts, hlast⟩
      refine ⟨hnew, fun _ => ?_, fun hmem => ?_⟩
      · rwa [feedUrl_mark hmark hr, feedRef_mark hmark hr]
      · rw [lastMark_append hmark hr, hlast hmem]
    · rintro ⟨hnew, hparts, hlast⟩
      rw [feedUrl_mark hmark hr, feedRef_mark hmark hr, lastMark_append hmark hr] at *
      exact ⟨hnew, hparts hu, fun hmem => Option.some.inj (hlast hmem)⟩
  · have hplain : u.any isRefMark = false := by simpa using hu
    rw [urlAlgebra_plain_iff hplain hn]
    constructor
    · intro hnew
      refine ⟨hnew, fun h => absurd h hu, fun hmem => absurd ?_ hu⟩
      exact List.any_eq_true.mpr ⟨';', hmem, rfl⟩
    · exact ProperUrl.new

/-- A commit of the packages feed, served from a mirror. -/
theorem packages_url_algebra :
    UrlAlgebra "https://gitlab.nic.cz/turris/os/packages.git^2ce4".toList
      "file:///mirror/turrispackages".toList := by
  refine (feed_url_algebra_iff ?_).mpr ⟨by decide, by decide, by decide⟩
  exact List.all_iff_forall_prop.mp (by decide)

/-- A branch and a commit in one url: the part behind the caret is taken for a branch. -/
theorem branch_and_commit_confused :
    feedRef "https://gitlab.nic.cz/turris/os/packages.git;hbd^2ce4".toList false =
      "2ce4".toList ∧
    ¬UrlAlgebra "https://gitlab.nic.cz/turris/os/packages.git;hbd^2ce4".toList
      "file:///mirror/turrispackages".toList := by
  refine ⟨by decide, fun h => ?_⟩
  obtain ⟨mark, -, hsplit, hbranch⟩ := h.split (by decide)
  obtain rfl := hbranch.mp (by decide)
  exact absurd hsplit (by decide)

end TurrisBuild.Release
