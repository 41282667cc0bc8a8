import Mathlib.Tactic.Common

/-!
# Computations that can fail

When a computation in `Except` that is put together from others gives a result, and
what holds of the state in which a program ends that stops at its first failure.
-/

namespace Outcome

variable {ε α β : Type}

/-- A computation gives a result when both its parts do. -/
theorem bind_eq_ok_iff {x : Except ε α} {f : α → Except ε β} {b : β} :
    x >>= f = .ok b ↔ ∃ a, x = .ok a ∧ f a = .ok b := by
  cases x with
  | error e => exact iff_of_false (fun h => by cases h) (fun ⟨_, h, _⟩ => by cases h)
  | ok a =>
    constructor
    · intro h
      exact ⟨a, rfl, h⟩
    · rintro ⟨a', ha, h⟩
      obtain rfl := Except.ok.inj ha
      exact h

/-- The elements of a list that is computed without an exception. -/
theorem mapM_eq_ok_iff {f : α → Except ε β} {l : List α} {r : List β} :
    l.mapM f = .ok r ↔
      (∀ a ∈ l, ∃ b, f a = .ok b) ∧ r = l.filterMap fun a => (f a).toOption := by
  induction l generalizing r with
  | nil =>
    rw [List.mapM_nil, List.filterMap_nil]
    constructor
    · intro h
      exact ⟨by simp, (Except.ok.inj h).symm⟩
    · rintro ⟨-, rfl⟩
      rfl
  | cons a l ih =>
    rw [List.mapM_cons, bind_eq_ok_iff, List.forall_mem_cons]
    constructor
    · rintro ⟨b, hb, h⟩
      obtain ⟨bs, hbs, hr⟩ := bind_eq_ok_iff.mp h
      obtain ⟨hall, rfl⟩ := ih.mp hbs
      refine ⟨⟨⟨b, hb⟩, hall⟩, ?_⟩
      rw [List.filterMap_cons_some (b := b) (by rw [hb]; rfl)]
      exact (Except.ok.inj hr).symm
    · rintro ⟨⟨⟨b, hb⟩, hall⟩, rfl⟩
      refine ⟨b, hb, bind_eq_ok_iff.mpr ⟨_, ih.mpr ⟨hall, rfl⟩, ?_⟩⟩
      rw [List.filterMap_cons_some (b := b) (by rw [hb]; rfl)]
      rfl

/-- A loop that can fail, up to its last element. -/
theorem foldlM_concat_eq_ok_iff {f : β → α → Except ε β} {l : List α} {a : α} {b b' : β} :
    (l ++ [a]).foldlM f b = .ok b' ↔ ∃ c, l.foldlM f b = .ok c ∧ f c a = .ok b' := by
  rw [List.foldlM_append, bind_eq_ok_iff]
  refine exists_congr fun c => and_congr_right fun _ => ?_
  rw [List.foldlM_cons, bind_eq_ok_iff]
  constructor
  · rintro ⟨d, hd, hnil⟩
    rwa [← Except.ok.inj hnil]
  · intro h
    exact ⟨b', h, rfl⟩

/-! ### Where a program ends -/

section Final

variable {σ : Type}

/-- The state in which the program ends, with or without success. -/
def final : Except σ σ → σ
  | .ok s => s
  | .error s => s

/-- A program that succeeds ends in its last state. -/
@[simp] theorem final_ok (s : σ) : final (.ok s) = s := rfl

/-- A program that fails ends in the state of its failure. -/
@[simp] theorem final_error (s : σ) : final (.error s) = s := rfl

/-- A property that holds in the end if it holds in the beginning. -/
def Preserves (inv : σ → Prop) (f : σ → Except σ σ) : Prop := ∀ s, inv s → inv (final (f s))

/-- Two steps one after the other. -/
theorem Preserves.bind {inv : σ → Prop} {f g : σ → Except σ σ} (hf : Preserves inv f)
    (hg : Preserves inv g) : Preserves inv fun s => f s >>= g := by
  intro s hs
  have hfs := hf s hs
  change inv (final (f s >>= g))
  cases hresult : f s with
  | error t =>
    rw [hresult] at hfs
    exact hfs
  | ok t =>
    rw [hresult] at hfs
    exact hg t hfs

/-- A choice between two steps. -/
theorem Preserves.ite {inv : σ → Prop} {c : σ → Bool} {f g : σ → Except σ σ}
    (hf : Preserves inv f) (hg : Preserves inv g) :
    Preserves inv fun s => if c s then f s else g s := by
  intro s hs
  cases hc : c s with
  | true => simpa [hc] using hf s hs
  | false => simpa [hc] using hg s hs

/-- No step at all. -/
theorem preserves_ok (inv : σ → Prop) : Preserves inv .ok := fun _ hs => hs

/-- A loop. -/
theorem Preserves.foldlM {inv : σ → Prop} {f : α → σ → Except σ σ}
    (hf : ∀ a, Preserves inv (f a)) (l : List α) :
    Preserves inv fun s => l.foldlM (fun s a => f a s) s := by
  induction l with
  | nil => exact preserves_ok inv
  | cons a l ih => exact (hf a).bind ih

end Final

end Outcome
