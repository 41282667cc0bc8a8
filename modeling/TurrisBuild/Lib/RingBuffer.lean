import Mathlib.Algebra.BigOperators.Fin
import Mathlib.Data.Nat.Bitwise
import Mathlib.Data.Nat.ModEq
import Mathlib.Data.Nat.Prime.Basic

/-!
# Ring buffers of lists

An array whose entries from a head to a tail, around its end, make up a queue of lists. One entry
always stays free, and entries that are not in use are empty. The successor of an index may be
computed in any way as long as it counts up to a capacity, which may be less than the size of the
array.
-/

structure RingBuffer (α : Type*) where
  slot : ℕ → List α
  head : ℕ
  tail : ℕ

namespace RingBuffer

variable {α : Type*} (next : ℕ → ℕ)

/-- A list is put in front of the entry at the tail, unless the ring is full. -/
def push (items : List α) (r : RingBuffer α) : Option (RingBuffer α) :=
  if next r.tail = r.head then none
  else some
    { r with
      slot := Function.update r.slot r.tail (items ++ r.slot r.tail)
      tail := next r.tail }

/-- The entry at the head is taken out, unless the ring is empty. -/
def pop (r : RingBuffer α) : Option (List α × RingBuffer α) :=
  if r.head = r.tail then none
  else some (r.slot r.head,
    { r with
      slot := Function.update r.slot r.head []
      head := next r.head })

/-- The ring without any entry. -/
def empty : RingBuffer α := ⟨fun _ => [], 0, 0⟩

/-- The ring holds a queue. -/
structure Holds (cap : ℕ) (r : RingBuffer α) (q : List (List α)) : Prop where
  length_lt : q.length < cap
  head_lt : r.head < cap
  tail_eq : r.tail = (r.head + q.length) % cap
  slot_eq : ∀ (i : ℕ) (h : i < q.length), r.slot ((r.head + i) % cap) = q[i]
  slot_nil : ∀ j, (∀ i < q.length, j ≠ (r.head + i) % cap) → r.slot j = []

variable {next} {cap : ℕ} {r r' : RingBuffer α} {q : List (List α)} {items : List α}

/-- In the beginning the buffer holds nothing. -/
theorem holds_empty (hcap : 0 < cap) : Holds cap (empty : RingBuffer α) [] where
  length_lt := hcap
  head_lt := hcap
  tail_eq := (Nat.zero_mod cap).symm
  slot_eq _ h := absurd h (Nat.not_lt_zero _)
  slot_nil _ _ := rfl

/-- Different places of a window that is not larger than the ring are at different indices. -/
theorem eq_of_mod_eq {head i j : ℕ} (hi : i < cap) (hj : j < cap)
    (h : (head + i) % cap = (head + j) % cap) : i = j := by
  have hmod : i % cap = j % cap := Nat.ModEq.add_left_cancel' head h
  rwa [Nat.mod_eq_of_lt hi, Nat.mod_eq_of_lt hj] at hmod

/-- A buffer has slots. -/
theorem Holds.pos (h : Holds cap r q) : 0 < cap := Nat.zero_lt_of_lt h.length_lt

/-- The slot at the tail is empty. -/
theorem Holds.slot_tail (h : Holds cap r q) : r.slot r.tail = [] := by
  refine h.slot_nil r.tail fun i hi heq => ?_
  rw [h.tail_eq] at heq
  have hlt := h.length_lt
  have hsame := eq_of_mod_eq hlt (by omega) heq
  omega

/-- A ring is empty when it holds nothing. -/
theorem Holds.head_eq_tail_iff (h : Holds cap r q) : r.head = r.tail ↔ q = [] := by
  have hhead : (r.head + 0) % cap = r.head := Nat.mod_eq_of_lt h.head_lt
  have hlt := h.length_lt
  constructor
  · intro heq
    rw [h.tail_eq] at heq
    have hsame : 0 = q.length := eq_of_mod_eq (by omega) hlt (hhead.trans heq)
    exact List.eq_nil_of_length_eq_zero hsame.symm
  · rintro rfl
    rw [h.tail_eq, List.length_nil, hhead]

/-- Nothing is taken from an empty queue only. -/
theorem Holds.pop_eq_none_iff (h : Holds cap r q) : pop next r = none ↔ q = [] := by
  rw [← h.head_eq_tail_iff, pop]
  split
  · next heq => exact iff_of_true rfl heq
  · next hne => exact iff_of_false (Option.some_ne_none _) hne

section Next

variable (hnext : ∀ i < cap, next i = (i + 1) % cap)

include hnext

/-- The index behind the tail. -/
theorem Holds.next_tail (h : Holds cap r q) :
    next r.tail = (r.head + (q.length + 1)) % cap := by
  rw [hnext _ (h.tail_eq ▸ Nat.mod_lt _ h.pos), h.tail_eq, Nat.mod_add_mod]
  rfl

/-- A ring is full when a list more would make it look empty. -/
theorem Holds.push_eq_none_iff (h : Holds cap r q) (items : List α) :
    push next items r = none ↔ q.length + 1 = cap := by
  have hhead : (r.head + 0) % cap = r.head := Nat.mod_eq_of_lt h.head_lt
  have hlt := h.length_lt
  rw [push, h.next_tail hnext]
  constructor
  · intro hnone
    split at hnone
    · next heq =>
      by_contra hne
      have hsame : q.length + 1 = 0 := eq_of_mod_eq (by omega) h.pos (heq.trans hhead.symm)
      omega
    · cases hnone
  · intro heq
    rw [heq, Nat.add_mod_right, Nat.mod_eq_of_lt h.head_lt, if_pos rfl]

/-- What is put into the buffer comes last in the queue. -/
theorem Holds.push (h : Holds cap r q)
    (hpush : push next items r = some r') : Holds cap r' (q ++ [items]) := by
  have hlt := h.length_lt
  have hroom : q.length + 1 < cap := by
    have hne : ¬q.length + 1 = cap := by
      rw [← h.push_eq_none_iff hnext items, hpush]
      exact Option.some_ne_none _
    omega
  rw [RingBuffer.push] at hpush
  split at hpush
  · cases hpush
  obtain rfl := Option.some.inj hpush
  refine ⟨by simpa using hroom, h.head_lt, ?_, fun i hi => ?_, fun j hj => ?_⟩
  · simp only [List.length_append, List.length_singleton]
    exact h.next_tail hnext
  · rw [List.length_append, List.length_singleton] at hi
    simp only [h.slot_tail, List.append_nil]
    rcases Nat.lt_succ_iff_lt_or_eq.mp hi with hi | rfl
    · have hne : (r.head + i) % cap ≠ r.tail := by
        rw [h.tail_eq]
        intro heq
        have hsame := eq_of_mod_eq (by omega) hlt heq
        omega
      rw [Function.update_of_ne hne, List.getElem_append_left hi]
      exact h.slot_eq i hi
    · rw [← h.tail_eq, Function.update_self, List.getElem_append_right (le_refl _)]
      simp
  · have hne : j ≠ r.tail := by
      rw [h.tail_eq]
      exact hj q.length (by simp)
    simp only [Function.update_of_ne hne]
    exact h.slot_nil j fun i hi => hj i (by simp; omega)

/-- The list that was put in first comes out. -/
theorem Holds.pop (h : Holds cap r q)
    (hpop : pop next r = some (items, r')) : ∃ rest, q = items :: rest ∧ Holds cap r' rest := by
  have hlt := h.length_lt
  have hhead : (r.head + 0) % cap = r.head := Nat.mod_eq_of_lt h.head_lt
  cases q with
  | nil =>
    rw [h.pop_eq_none_iff.mpr rfl] at hpop
    cases hpop
  | cons first rest =>
    rw [List.length_cons] at hlt
    rw [RingBuffer.pop] at hpop
    split at hpop
    · cases hpop
    obtain ⟨rfl, rfl⟩ := Prod.mk.inj (Option.some.inj hpop)
    have hfirst : r.slot r.head = first := by
      have hslot := h.slot_eq 0 (by simp)
      rwa [hhead] at hslot
    have hshift : ∀ i, (next r.head + i) % cap = (r.head + (i + 1)) % cap := by
      intro i
      rw [hnext _ h.head_lt, Nat.mod_add_mod]
      congr 1
      omega
    refine ⟨rest, by rw [hfirst], by omega, hnext _ h.head_lt ▸ Nat.mod_lt _ h.pos, ?_,
      fun i hi => ?_, fun j hj => ?_⟩
    · rw [hshift]
      exact h.tail_eq
    · simp only [hshift]
      have hne : (r.head + (i + 1)) % cap ≠ r.head := by
        intro heq
        have hsame := eq_of_mod_eq (by omega) (by omega) (heq.trans hhead.symm)
        omega
      rw [Function.update_of_ne hne]
      exact h.slot_eq (i + 1) (by simpa using hi)
    · rcases eq_or_ne j r.head with rfl | hne
      · simp only [Function.update_self]
      · simp only [Function.update_of_ne hne]
        refine h.slot_nil j fun i hi => ?_
        cases i with
        | zero => rwa [hhead]
        | succ i =>
          rw [← hshift]
          exact hj i (by simpa using hi)

end Next

open Finset in
/-- What the entries of the array add up to is what the queue adds up to. -/
theorem Holds.sum_slot (h : Holds cap r q) {size : ℕ} (hsize : cap ≤ size) {f : List α → ℕ}
    (hf : f [] = 0) : ∑ j ∈ range size, f (r.slot j) = (q.map f).sum := by
  have hlt := h.length_lt
  have hinj : Set.InjOn (fun i => (r.head + i) % cap) (range q.length) := by
    intro i hi j hj heq
    rw [mem_coe, mem_range] at hi hj
    exact eq_of_mod_eq (by omega) (by omega) heq
  have hsubset : (range q.length).image (fun i => (r.head + i) % cap) ⊆ range size := by
    intro j hj
    obtain ⟨i, -, rfl⟩ := mem_image.mp hj
    exact mem_range.mpr ((Nat.mod_lt _ h.pos).trans_le hsize)
  rw [← sum_subset hsubset fun j _ hj => ?_, sum_image hinj]
  · rw [sum_range, ← Fin.sum_univ_getElem, ← Fin.sum_congr' _ (List.length_map f)]
    refine sum_congr rfl fun i _ => ?_
    have hi : (i : ℕ) < q.length := by simpa using i.isLt
    simpa using congrArg f (h.slot_eq i hi)
  · rw [h.slot_nil j fun i hi heq => hj (mem_image.mpr ⟨i, mem_range.mpr hi, heq.symm⟩), hf]

/-! ### Indices -/

/-- The numbers below the greatest power of two of a number are kept by the mask. -/
theorem and_pred_of_lt {x k m : ℕ} (hm : 0 < m) (hx : x < 2 ^ k) :
    x &&& (2 ^ k * m - 1) = x := by
  have hlt : x &&& (2 ^ k * m - 1) < 2 ^ k := Nat.and_le_left.trans_lt hx
  have hpred : (2 ^ k * m - 1) % 2 ^ k = 2 ^ k - 1 := by
    obtain ⟨n, rfl⟩ := Nat.exists_eq_succ_of_ne_zero hm.ne'
    have hpos := Nat.two_pow_pos k
    have hsplit : 2 ^ k * (n + 1) - 1 = 2 ^ k - 1 + 2 ^ k * n := by
      rw [Nat.mul_succ]
      omega
    rw [hsplit, Nat.add_mul_mod_self_left, Nat.mod_eq_of_lt (by omega)]
  rw [← Nat.mod_eq_of_lt hlt, Nat.and_mod_two_pow, hpred, Nat.and_two_pow_sub_one_eq_mod,
    Nat.mod_mod, Nat.mod_eq_of_lt hx]

/-- That power itself is not. -/
theorem two_pow_and_pred {k m : ℕ} (hm : m % 2 = 1) : 2 ^ k &&& (2 ^ k * m - 1) = 0 := by
  have hbit : (2 ^ k * m - 1).testBit k = false := by
    obtain ⟨n, rfl⟩ : ∃ n, m = 2 * n + 1 := ⟨m / 2, by omega⟩
    have hpos := Nat.two_pow_pos k
    have hsplit : 2 ^ k * (2 * n + 1) - 1 = 2 ^ k - 1 + 2 ^ k * (2 * n) := by
      rw [Nat.mul_succ]
      omega
    rw [Nat.testBit_eq_decide_div_mod_eq, hsplit, Nat.add_mul_div_left _ _ hpos,
      Nat.div_eq_of_lt (by omega)]
    simp
  rw [Nat.and_comm, Nat.and_two_pow, hbit, Bool.toNat_false, Nat.zero_mul]

/-- **Indices by a mask.** An index of some bits that is masked with the predecessor of a size
counts up to the greatest power of two that divides the size and that the bits can hold. -/
theorem masked_succ {size bits i : ℕ} (hpos : 0 < size) (hi : i < Nat.gcd size (2 ^ bits)) :
    ((i + 1) &&& (size - 1)) % 2 ^ bits = (i + 1) % Nat.gcd size (2 ^ bits) := by
  obtain ⟨k, hk, hgcd⟩ :=
    (Nat.dvd_prime_pow Nat.prime_two).mp (Nat.gcd_dvd_right size (2 ^ bits))
  obtain ⟨m, rfl⟩ : 2 ^ k ∣ size := hgcd ▸ Nat.gcd_dvd_left size (2 ^ bits)
  have hm : 0 < m := Nat.pos_of_mul_pos_left hpos
  rw [hgcd] at hi ⊢
  have hle : 2 ^ k ≤ 2 ^ bits := Nat.pow_le_pow_right (by decide) hk
  rcases Nat.lt_or_ge (i + 1) (2 ^ k) with hlt | hge
  · rw [and_pred_of_lt hm hlt, Nat.mod_eq_of_lt (by omega), Nat.mod_eq_of_lt hlt]
  obtain heq : i + 1 = 2 ^ k := by omega
  rw [heq, Nat.mod_self]
  rcases eq_or_ne k bits with rfl | hne
  · rw [Nat.and_mod_two_pow, Nat.mod_self, Nat.zero_and]
  · have hodd : m % 2 = 1 := by
      by_contra heven
      obtain ⟨n, rfl⟩ : 2 ∣ m := by omega
      have hdvd : 2 ^ (k + 1) ∣ Nat.gcd (2 ^ k * (2 * n)) (2 ^ bits) :=
        Nat.dvd_gcd ⟨n, by rw [Nat.pow_succ, Nat.mul_assoc]⟩ (Nat.pow_dvd_pow 2 (by omega))
      rw [hgcd] at hdvd
      have hle := Nat.le_of_dvd (Nat.two_pow_pos k) hdvd
      have hpos := Nat.two_pow_pos k
      rw [Nat.pow_succ] at hle
      omega
    rw [two_pow_and_pred hodd, Nat.zero_mod]

end RingBuffer
