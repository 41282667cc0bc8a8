import Mathlib.Algebra.BigOperators.Fin
import Mathlib.Data.ZMod.Basic
import Mathlib.Tactic.Ring

/-!
# One's complement arithmetic

The words of one's complement arithmetic are the residues modulo `2 ^ n - 1`, where zero has
two words. Sums of words do not depend on how carries are carried around, and a word is
determined by its residue once one of the two zeros is ruled out.
-/

namespace OnesComplement

variable {n : ℕ}

/-- What a word stands for. -/
def residue (w : BitVec n) : ZMod (2 ^ n - 1) := (w.toNat : ZMod (2 ^ n - 1))

/-- The word for the same residue that is not all ones. -/
def normalize (w : BitVec n) : BitVec n := if w = BitVec.allOnes n then 0 else w

/-- The zero word counts nothing. -/
@[simp] theorem residue_zero : residue (0 : BitVec n) = 0 := by
  simp [residue]

/-- The other zero of the representation counts nothing, too. -/
@[simp] theorem residue_allOnes : residue (BitVec.allOnes n) = 0 := by
  rw [residue, BitVec.toNat_allOnes, ZMod.natCast_self]

/-- Normalising keeps the residue. -/
@[simp] theorem residue_normalize (w : BitVec n) : residue (normalize w) = residue w := by
  unfold normalize
  split
  · next h => rw [h, residue_zero, residue_allOnes]
  · rfl

/-- A normalised word is not all ones. -/
theorem normalize_ne (h : 0 < n) (w : BitVec n) : normalize w ≠ BitVec.allOnes n := by
  unfold normalize
  split
  · intro heq
    have hval := congrArg BitVec.toNat heq
    rw [BitVec.toNat_allOnes] at hval
    have hpow : 2 ^ 1 ≤ 2 ^ n := Nat.pow_le_pow_right (by omega) h
    simp at hval
    omega
  · assumption

/-- Words that are not all ones are determined by their residues. -/
theorem residue_injective {w w' : BitVec n} (hw : w ≠ BitVec.allOnes n)
    (hw' : w' ≠ BitVec.allOnes n) (h : residue w = residue w') : w = w' := by
  have hlt : ∀ v : BitVec n, v ≠ BitVec.allOnes n → v.toNat < 2 ^ n - 1 := by
    intro v hv
    have hne : v.toNat ≠ 2 ^ n - 1 := by
      intro heq
      exact hv (BitVec.eq_of_toNat_eq (heq.trans BitVec.toNat_allOnes.symm))
    have := v.isLt
    omega
  apply BitVec.eq_of_toNat_eq
  rw [residue, residue, ZMod.natCast_eq_natCast_iff', Nat.mod_eq_of_lt (hlt w hw),
    Nat.mod_eq_of_lt (hlt w' hw')] at h
  exact h

/-- Folding a number adds its parts. -/
theorem cast_fold (m : ℕ) :
    ((m % 2 ^ n + m / 2 ^ n : ℕ) : ZMod (2 ^ n - 1)) = (m : ZMod (2 ^ n - 1)) := by
  have hpow : ((2 ^ n : ℕ) : ZMod (2 ^ n - 1)) = 1 := by
    have hsucc : 2 ^ n = 2 ^ n - 1 + 1 := (Nat.sub_add_cancel Nat.one_le_two_pow).symm
    rw [hsucc, Nat.cast_add, Nat.add_sub_cancel, ZMod.natCast_self, zero_add, Nat.cast_one]
  have hsplit : ((m % 2 ^ n + 2 ^ n * (m / 2 ^ n) : ℕ) : ZMod (2 ^ n - 1)) = m := by
    rw [Nat.mod_add_div]
  rw [Nat.cast_add, Nat.cast_mul, hpow, one_mul, ← Nat.cast_add] at hsplit
  exact hsplit

/-! ### Parts of words -/

/-- Words without common bits are added by joining them. -/
theorem residue_or {w v : BitVec n} (h : w &&& v = 0) :
    residue (w ||| v) = residue w + residue v := by
  rw [residue, ← BitVec.add_eq_or_of_and_eq_zero w v h, BitVec.toNat_add_of_and_eq_zero h,
    Nat.cast_add]
  rfl

/-- A mask and its complement have no common bits. -/
theorem and_and_not (w v m : BitVec n) : w &&& m &&& (v &&& ~~~m) = 0 := by
  ext i hi
  cases hm : m[i] <;> simp [hm]

/-- A word is the sum of its parts. -/
theorem residue_split (w m : BitVec n) :
    residue w = residue (w &&& m) + residue (w &&& ~~~m) := by
  rw [← residue_or (and_and_not w w m)]
  congr 1
  ext i hi
  cases hm : m[i] <;> simp [hm]

/-- A part of a word is replaced by that of another one. -/
theorem residue_replace (w v m : BitVec n) :
    residue (w &&& m ||| v &&& ~~~m) = residue w - residue (w &&& ~~~m) + residue (v &&& ~~~m) := by
  rw [residue_or (and_and_not w v m), residue_split w m, add_sub_cancel_right]

/-! ### Sums -/

section Sum

variable {k : ℕ}

/-- The sum of words. -/
def sum (words : Fin k → BitVec n) : ZMod (2 ^ n - 1) := ∑ i, residue (words i)

/-- The sum of words of which some bits are replaced. -/
theorem sum_replace (words words' masks : Fin k → BitVec n) :
    sum (fun i => words i &&& masks i ||| words' i &&& ~~~masks i) =
      sum words - sum (fun i => words i &&& ~~~masks i) + sum fun i => words' i &&& ~~~masks i := by
  simp only [sum, residue_replace, Finset.sum_add_distrib, Finset.sum_sub_distrib]

/-- The sum of words of which one is replaced. -/
theorem sum_update (words : Fin k → BitVec n) (i : Fin k) (w : BitVec n) :
    sum (Function.update words i w) = sum words - residue (words i) + residue w := by
  have hrest : ∀ j ∈ Finset.univ.erase i,
      residue (Function.update words i w j) = residue (words j) := by
    intro j hj
    rw [Function.update_of_ne (Finset.ne_of_mem_erase hj)]
  rw [sum, sum, ← Finset.add_sum_erase _ _ (Finset.mem_univ i), Function.update_self,
    Finset.sum_congr rfl hrest, ← Finset.add_sum_erase _ (fun j => residue (words j))
      (Finset.mem_univ i)]
  ring

end Sum

end OnesComplement
