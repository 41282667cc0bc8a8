import Mathlib.Data.List.Basic

/-!
# Handshakes

A writer announces an item by toggling a bit, and a reader takes it by copying the bit. While the
bits differ there is an item to be taken. With a second pair of bits the reader says that it has
taken the item, and a writer that waits for this hands over one item at a time.
-/

namespace Handshake

variable {α : Type*}

/-- What was given was taken, but for what is announced. -/
def Carries (flag ack : Bool) (item : α) (given taken : List α) : Prop :=
  given = taken ++ if flag = ack then [] else [item]

section Carries

variable {flag ack : Bool} {item : α} {given taken : List α}

/-- Nothing is under way when both bits are alike. -/
theorem carries_nil (bit : Bool) (item : α) : Carries bit bit item [] [] := by
  rw [Carries, if_pos rfl, List.append_nil]

/-- Without an announcement all was taken. -/
theorem Carries.eq_of_free (h : Carries flag ack item given taken) (hfree : flag = ack) :
    given = taken := by
  rw [Carries, if_pos hfree, List.append_nil] at h
  exact h

/-- With an announcement one item is missing. -/
theorem Carries.eq_of_full (h : Carries flag ack item given taken) (hfull : flag ≠ ack) :
    given = taken ++ [item] := by
  rw [Carries, if_neg hfull] at h
  exact h

/-- Nothing is announced when all was taken. -/
theorem Carries.free_of_eq (h : Carries flag ack item given taken) (heq : given = taken) :
    flag = ack := by
  by_contra hfull
  have hitem := heq.symm.trans (h.eq_of_full hfull)
  exact List.cons_ne_nil item [] (List.self_eq_append_right.mp hitem)

/-- An item is announced. -/
theorem Carries.give (h : Carries flag ack item given taken) (hfree : flag = ack) (item' : α) :
    Carries (!flag) ack item' (given ++ [item']) taken := by
  have hne : (!flag) ≠ ack := hfree ▸ (Bool.not_eq_self flag).mp
  rw [Carries, if_neg hne, h.eq_of_free hfree]

/-- An item is taken. -/
theorem Carries.take (h : Carries flag ack item given taken) (hfull : flag ≠ ack) :
    Carries flag flag item given (taken ++ [item]) := by
  rw [Carries, if_pos rfl, List.append_nil, h.eq_of_full hfull]

end Carries

/-- A writer that is busy waits until its item was taken, and then until it has heard of that. It
has heard of some items that were taken, and of all but the last one. -/
structure StopAndWait (busy flag ack done doneAck : Bool) (item : α) (given taken : List α)
    (heard : ℕ) : Prop where
  carries : Carries flag ack item given taken
  length_eq : taken.length = heard + if done = doneAck then 0 else 1
  busy_iff : busy = true ↔ flag ≠ ack ∨ done ≠ doneAck
  turn : flag = ack ∨ done = doneAck

namespace StopAndWait

variable {busy flag ack done doneAck : Bool} {item : α} {given taken : List α} {heard : ℕ}

/-- In the beginning nothing was sent and nothing received. -/
theorem start (bit bit' : Bool) (item : α) :
    StopAndWait false bit bit bit' bit' item [] [] 0 where
  carries := carries_nil bit item
  length_eq := by rw [if_pos rfl, List.length_nil]
  busy_iff := by simp
  turn := .inl rfl

/-- Nothing is on its way to or from a writer that is not busy. -/
theorem free_of_idle (h : StopAndWait busy flag ack done doneAck item given taken heard)
    (hidle : busy = false) : flag = ack ∧ done = doneAck := by
  have hnot : ¬(flag ≠ ack ∨ done ≠ doneAck) := fun hor => by
    rw [h.busy_iff.mpr hor] at hidle
    cases hidle
  exact ⟨not_not.mp fun hne => hnot (.inl hne), not_not.mp fun hne => hnot (.inr hne)⟩

/-- All was taken of a writer that is not busy, and it has heard of all. -/
theorem eq_of_idle (h : StopAndWait busy flag ack done doneAck item given taken heard)
    (hidle : busy = false) : given = taken ∧ heard = taken.length := by
  obtain ⟨hflag, hdone⟩ := h.free_of_idle hidle
  have hlength := h.length_eq
  rw [if_pos hdone] at hlength
  exact ⟨h.carries.eq_of_free hflag, hlength.symm⟩

/-- What was heard of was taken, and at most one item was not heard of. -/
theorem length_le (h : StopAndWait busy flag ack done doneAck item given taken heard) :
    heard ≤ taken.length ∧ given.length ≤ heard + 1 := by
  have hlength := h.length_eq
  by_cases hflag : flag = ack
  · rw [h.carries.eq_of_free hflag]
    split at hlength <;> omega
  · rw [if_pos (h.turn.resolve_left hflag)] at hlength
    rw [h.carries.eq_of_full hflag, List.length_append, List.length_singleton]
    omega

/-- The writer announces an item. -/
theorem give (h : StopAndWait busy flag ack done doneAck item given taken heard)
    (hidle : busy = false) (item' : α) :
    StopAndWait true (!flag) ack done doneAck item' (given ++ [item']) taken heard := by
  obtain ⟨hflag, hdone⟩ := h.free_of_idle hidle
  exact
    { carries := h.carries.give hflag item'
      length_eq := h.length_eq
      busy_iff := ⟨fun _ => .inl (hflag ▸ (Bool.not_eq_self flag).mp), fun _ => rfl⟩
      turn := .inr hdone }

/-- The reader takes the item and says so. -/
theorem take (h : StopAndWait busy flag ack done doneAck item given taken heard)
    (hfull : flag ≠ ack) :
    StopAndWait busy flag flag (!done) doneAck item given (taken ++ [item]) heard := by
  have hdone : done = doneAck := h.turn.resolve_left hfull
  have hne : (!done) ≠ doneAck := hdone ▸ (Bool.not_eq_self done).mp
  have hlength := h.length_eq
  rw [if_pos hdone] at hlength
  exact
    { carries := h.carries.take hfull
      length_eq := by rw [List.length_append, hlength, if_neg hne, List.length_singleton]
      busy_iff := ⟨fun _ => .inr hne, fun _ => h.busy_iff.mpr (.inl hfull)⟩
      turn := .inl rfl }

/-- The writer hears of it. -/
theorem hear (h : StopAndWait busy flag ack done doneAck item given taken heard)
    (hdone : done ≠ doneAck) :
    StopAndWait false flag ack done done item given taken (heard + 1) := by
  have hflag : flag = ack := h.turn.resolve_right hdone
  have hlength := h.length_eq
  rw [if_neg hdone] at hlength
  exact
    { carries := h.carries
      length_eq := by rw [hlength, if_pos rfl]
      busy_iff := by simp [hflag]
      turn := .inl hflag }

end StopAndWait

end Handshake
