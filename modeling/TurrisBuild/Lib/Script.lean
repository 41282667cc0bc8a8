import Mathlib.Data.List.Basic

/-!
# Scripts that stop at the first failure

A script is a list of commands. It ends when all of them are done, or in one that fails or is
stopped and may have begun its work. The weakest precondition of a script asks for what every
command needs, and its rules are those for sequences and for loops over a list.
-/

namespace Script

variable {σ κ α : Type*} (run : κ → σ → Option σ) (begun : κ → σ → σ)

/-- The state after all commands, unless one of them fails. -/
def runAll : List κ → σ → Option σ
  | [], s => some s
  | command :: commands, s => (run command s).bind (runAll commands)

/-- The state that a script leaves which is stopped in one of its commands, unless one before that
fails. -/
def runFor : List κ → ℕ → σ → σ
  | [], _, s => s
  | command :: _, 0, s => begun command s
  | command :: commands, n + 1, s =>
    match run command s with
    | some s => runFor commands n s
    | none => begun command s

/-- Each command is ready when it comes, a failure is one that may be, and in the end the
postcondition holds. -/
def Wp (ready : κ → σ → Prop) (fail : Prop) (post : σ → Prop) : List κ → σ → Prop
  | [], s => post s
  | command :: commands, s =>
    ready command s ∧
      match run command s with
      | some s => Wp ready fail post commands s
      | none => fail

variable {run} {begun} {ready : κ → σ → Prop} {fail fail' : Prop} {post post' : σ → Prop}

/-- A command in front of the others. -/
theorem Wp.cons {command : κ} {commands : List κ} {s : σ} (hready : ready command s)
    (hsome : ∀ s', run command s = some s' → Wp run ready fail post commands s')
    (hnone : run command s = none → fail) : Wp run ready fail post (command :: commands) s := by
  refine ⟨hready, ?_⟩
  cases hrun : run command s with
  | none => exact hnone hrun
  | some s' => exact hsome s' hrun

/-- A command whose outcome is known. -/
theorem Wp.cons_of_eq {command : κ} {commands : List κ} {s s' : σ} (hready : ready command s)
    (hrun : run command s = some s') (h : Wp run ready fail post commands s') :
    Wp run ready fail post (command :: commands) s := by
  refine ⟨hready, ?_⟩
  rw [hrun]
  exact h

/-- A weaker condition holds in the end, too. -/
theorem Wp.mono {commands : List κ} {s : σ} (hfail : fail → fail') (hpost : ∀ s, post s → post' s)
    (h : Wp run ready fail post commands s) : Wp run ready fail' post' commands s := by
  induction commands generalizing s with
  | nil => exact hpost s h
  | cons command commands ih =>
    obtain ⟨hready, h⟩ := h
    refine Wp.cons hready (fun s' hrun => ?_) fun hrun => ?_
    · rw [hrun] at h
      exact ih h
    · rw [hrun] at h
      exact hfail h

/-- Sequences. -/
theorem Wp.append {commands commands' : List κ} {s : σ}
    (h : Wp run ready fail (Wp run ready fail post commands') commands s) :
    Wp run ready fail post (commands ++ commands') s := by
  induction commands generalizing s with
  | nil => exact h
  | cons command commands ih =>
    obtain ⟨hready, h⟩ := h
    refine Wp.cons hready (fun s' hrun => ?_) fun hrun => ?_
    · rw [hrun] at h
      exact ih h
    · rw [hrun] at h
      exact h

/-- Loops, with an invariant that speaks of the rest of the list. -/
theorem Wp.loop (inv : List α → σ → Prop) {body : α → List κ}
    (hbody : ∀ a rest s, inv (a :: rest) s → Wp run ready fail (inv rest) (body a) s) {l : List α}
    {s : σ} (h : inv l s) : Wp run ready fail (inv []) (l.flatMap body) s := by
  induction l generalizing s with
  | nil => exact h
  | cons a rest ih => exact ((hbody a rest s h).mono id fun s hs => ih hs).append

/-- How a script ends that is not stopped. -/
theorem Wp.runAll {commands : List κ} {s : σ} (h : Wp run ready fail post commands s) :
    (∃ s', Script.runAll run commands s = some s' ∧ post s') ∨
      Script.runAll run commands s = none ∧ fail := by
  induction commands generalizing s with
  | nil => exact .inl ⟨s, rfl, h⟩
  | cons command commands ih =>
    obtain ⟨-, h⟩ := h
    rw [Script.runAll]
    cases hrun : run command s with
    | none =>
      rw [hrun] at h
      exact .inr ⟨rfl, h⟩
    | some s' =>
      rw [hrun] at h
      exact ih h

/-- An invariant of commands that are ready holds wherever a script ends. -/
theorem Wp.runFor {inv : σ → Prop}
    (hrun : ∀ {command s s'}, inv s → ready command s → run command s = some s' → inv s')
    (hbegun : ∀ {command s}, inv s → ready command s → inv (begun command s))
    {commands : List κ} {s : σ} (h : Wp run ready fail post commands s) (hs : inv s) (n : ℕ) :
    inv (Script.runFor run begun commands n s) := by
  induction commands generalizing s n with
  | nil => exact hs
  | cons command commands ih =>
    obtain ⟨hready, h⟩ := h
    cases n with
    | zero => exact hbegun hs hready
    | succ n =>
      rw [Script.runFor]
      cases hresult : run command s with
      | none => exact hbegun hs hready
      | some s' =>
        rw [hresult] at h
        exact ih h (hrun hs hready hresult) n

end Script
