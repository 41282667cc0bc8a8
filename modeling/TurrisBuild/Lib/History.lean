import Mathlib.Order.Minimal
import Mathlib.Order.Lattice
import Mathlib.Data.Option.Basic

/-!
# Commit histories

Commits form a partial order in which `a ≤ b` says that `a` is an ancestor of
`b` or `b` itself. A repository adds the names it can resolve and the best
common ancestor that a merge-base query prints. A criss-cross history has
several best common ancestors; the query may print any of them, so the choice
is a field and only its specification is fixed.
-/

namespace History

/-- A repository over a history of commits: what its names resolve to and the
best common ancestor chosen for each pair of commits. -/
structure Repository (C : Type*) [PartialOrder C] where
  /-- The commit a name resolves to, if it resolves at all. -/
  revParse : List Char → Option C
  /-- The best common ancestor printed for two commits. -/
  mergeBase : C → C → Option C
  /-- A printed commit is a common ancestor that no other one improves. -/
  mergeBase_maximal : ∀ {a b m}, mergeBase a b = some m → Maximal (fun x => x ≤ a ∧ x ≤ b) m
  /-- Nothing is printed only when the two histories are disjoint. -/
  mergeBase_none : ∀ {a b}, mergeBase a b = none → ∀ x, x ≤ a → ¬x ≤ b

variable {C : Type*} [PartialOrder C]

/-- A best common ancestor of two commits. -/
def BestBase (a b m : C) : Prop := Maximal (fun x => x ≤ a ∧ x ≤ b) m

/-- A best common ancestor that lies in a part of the second history is one for
that part. -/
theorem BestBase.restrict {a b b' m : C} (h : BestBase a b m) (hb : b' ≤ b) (hm : m ≤ b') :
    BestBase a b' m :=
  ⟨⟨h.1.1, hm⟩, fun _ hx hmx => h.2 ⟨hx.1, hx.2.trans hb⟩ hmx⟩

/-- The best common ancestor with a commit of the own history is that commit. -/
theorem BestBase.eq_of_le {a b m : C} (h : BestBase a b m) (hb : b ≤ a) : m = b :=
  le_antisymm h.1.2 (h.2 ⟨hb, le_rfl⟩ h.1.2)

/-- A query about commits with a common ancestor prints a best one. -/
theorem Repository.exists_mergeBase (repo : Repository C) {a b x : C} (ha : x ≤ a) (hb : x ≤ b) :
    ∃ m, repo.mergeBase a b = some m ∧ BestBase a b m := by
  cases hm : repo.mergeBase a b with
  | none => exact absurd hb (repo.mergeBase_none hm x ha)
  | some m => exact ⟨m, rfl, repo.mergeBase_maximal hm⟩

/-- The repository in which the query about two commits prints another best
common ancestor of them. -/
def Repository.printing [DecidableEq C] (repo : Repository C) {a b m : C} (h : BestBase a b m) :
    Repository C where
  revParse := repo.revParse
  mergeBase x y := if x = a ∧ y = b then some m else repo.mergeBase x y
  mergeBase_maximal {x y n} hn := by
    split at hn
    next heq =>
      obtain ⟨rfl, rfl⟩ := heq
      exact Option.some.inj hn ▸ h
    next => exact repo.mergeBase_maximal hn
  mergeBase_none {x y} hn := by
    split at hn
    next => cases hn
    next => exact repo.mergeBase_none hn

/-- The best common ancestor of a commit and a named one, if the name resolves. -/
def Repository.mergeBaseWith (repo : Repository C) (c : C) (name : List Char) : Option C :=
  (repo.revParse name).bind (repo.mergeBase c)

/-- The repository of a history in which every two commits have a single best
common ancestor, their infimum. -/
def Repository.ofInf {C : Type*} [SemilatticeInf C] (revParse : List Char → Option C) :
    Repository C where
  revParse := revParse
  mergeBase a b := some (a ⊓ b)
  mergeBase_maximal := by
    rintro a b m hm
    obtain rfl := Option.some.inj hm
    exact ⟨⟨inf_le_left, inf_le_right⟩, fun x hx _ => le_inf hx.1 hx.2⟩
  mergeBase_none := by simp

/-- The ancestry test on two commit names. The test fails on an empty name. -/
def isAncestor [DecidableLE C] : Option C → Option C → Bool
  | some a, some b => decide (a ≤ b)
  | _, _ => false

/-- Of two commits the order decides. -/
@[simp] theorem isAncestor_some [DecidableLE C] (a b : C) :
    isAncestor (some a) (some b) = true ↔ a ≤ b := by
  simp [isAncestor]

/-- No commit is an ancestor. -/
@[simp] theorem isAncestor_none_left [DecidableLE C] (b : Option C) :
    isAncestor none b = false := rfl

/-- Nothing is an ancestor of no commit. -/
@[simp] theorem isAncestor_none_right [DecidableLE C] (a : Option C) :
    isAncestor a none = false := by
  cases a <;> rfl

end History
