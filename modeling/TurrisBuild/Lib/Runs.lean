import Mathlib.Data.List.Basic

/-!
# Runs of a deterministic machine

A machine is a step function on states and events. A run is a list of events,
and the two notions used throughout are the list of states a run visits and a
condition required of every step. The main rule turns a one-step equivalence
into an equivalence about whole runs: an invariant holds in every visited state
exactly when every step meets the condition that the equivalence names. A second rule
compares what two machines put out.
-/

namespace Runs

variable {σ ε : Type*} (step : σ → ε → σ)

/-- The states visited by a run, in order and without its starting state. -/
def states : σ → List ε → List σ
  | _, [] => []
  | s, e :: es => step s e :: states (step s e) es

/-- Every step of the run meets the condition in the state it is taken from. -/
def Along (p : σ → ε → Prop) : σ → List ε → Prop
  | _, [] => True
  | s, e :: es => p s e ∧ Along p (step s e) es

variable {step}

/-- A run without events reaches nothing. -/
@[simp] theorem states_nil (s : σ) : states step s [] = [] := rfl

/-- The states after the first event and after the others. -/
@[simp] theorem states_cons (s : σ) (e : ε) (es : List ε) :
    states step s (e :: es) = step s e :: states step (step s e) es := rfl

/-- Every run without events is fine. -/
@[simp] theorem along_nil (p : σ → ε → Prop) (s : σ) : Along step p s [] := trivial

/-- The first event and the others. -/
@[simp] theorem along_cons (p : σ → ε → Prop) (s : σ) (e : ε) (es : List ε) :
    Along step p s (e :: es) ↔ p s e ∧ Along step p (step s e) es := Iff.rfl

/-- A run that has steps visits the state that it ends in. -/
theorem foldl_mem_states {es : List ε} (hne : es ≠ []) (s : σ) :
    es.foldl step s ∈ states step s es := by
  induction es generalizing s with
  | nil => exact absurd rfl hne
  | cons e es ih =>
    rw [List.foldl_cons, states_cons]
    cases es with
    | nil => exact List.mem_singleton_self _
    | cons e' es => exact List.mem_cons_of_mem _ (ih (List.cons_ne_nil e' es) (step s e))

/-- A condition that every step meets is met along every run. -/
theorem along_of_forall {p : σ → ε → Prop} (hp : ∀ s e, p s e) (s : σ) (es : List ε) :
    Along step p s es := by
  induction es generalizing s with
  | nil => trivial
  | cons e es ih => exact ⟨hp s e, ih (step s e)⟩

/-- A condition on events that all of them meet is met along the run. -/
theorem along_of_forall_mem {p : ε → Prop} {s : σ} {es : List ε} (hp : ∀ e ∈ es, p e) :
    Along step (fun _ e => p e) s es := by
  induction es generalizing s with
  | nil => trivial
  | cons e es ih =>
    obtain ⟨he, hes⟩ := List.forall_mem_cons.mp hp
    exact ⟨he, ih hes⟩

/-- Two conditions along one run are one condition. -/
theorem along_and {p q : σ → ε → Prop} {s : σ} {es : List ε} (hp : Along step p s es)
    (hq : Along step q s es) : Along step (fun s e => p s e ∧ q s e) s es := by
  induction es generalizing s with
  | nil => trivial
  | cons e es ih => exact ⟨⟨hp.1, hq.1⟩, ih hp.2 hq.2⟩

/-- Conditions that agree on every step agree along every run. -/
theorem along_congr {p q : σ → ε → Prop} (h : ∀ s e, p s e ↔ q s e) (s : σ) (es : List ε) :
    Along step p s es ↔ Along step q s es := by
  induction es generalizing s with
  | nil => exact Iff.rfl
  | cons e es ih => exact and_congr (h s e) (ih (step s e))

/-- An invariant that steps with `cond` keep, and that gives `p` for each of them,
gives `p` along every run of such steps. -/
theorem along_of_invariant {inv : σ → Prop} {cond p : σ → ε → Prop}
    (hkeep : ∀ s e, inv s → cond s e → inv (step s e)) (hp : ∀ s e, inv s → p s e) {s : σ}
    {es : List ε} (hs : inv s) (hcond : Along step cond s es) : Along step p s es := by
  induction es generalizing s with
  | nil => trivial
  | cons e es ih => exact ⟨hp s e hs, ih (hkeep s e hs hcond.1) hcond.2⟩

/-- The same when a step gives `p` because of its condition. -/
theorem along_of_step {inv : σ → Prop} {cond p : σ → ε → Prop}
    (hstep : ∀ s e, inv s → cond s e → inv (step s e) ∧ p s e) {s : σ} {es : List ε} (hs : inv s)
    (hcond : Along step cond s es) : Along step p s es := by
  induction es generalizing s with
  | nil => trivial
  | cons e es ih =>
    obtain ⟨hinv, hp⟩ := hstep s e hs hcond.1
    exact ⟨hp, ih hinv hcond.2⟩

/-- An invariant that every event of a kind keeps holds in every state of a run of such events. -/
theorem forall_states_of_invariant {inv : σ → Prop} {allowed : ε → Prop}
    (hstep : ∀ s e, inv s → allowed e → inv (step s e)) {s : σ} {es : List ε} (hs : inv s)
    (hallowed : ∀ e ∈ es, allowed e) : ∀ t ∈ states step s es, inv t := by
  induction es generalizing s with
  | nil => exact fun t ht => nomatch ht
  | cons e es ih =>
    obtain ⟨he, hes⟩ := List.forall_mem_cons.mp hallowed
    have hnext := hstep s e hs he
    rw [states_cons, List.forall_mem_cons]
    exact ⟨hnext, ih hnext hes⟩

/-- A condition on steps is decided by running the machine. -/
instance Along.decidable (p : σ → ε → Prop) [∀ s e, Decidable (p s e)] :
    ∀ (s : σ) (es : List ε), Decidable (Along step p s es)
  | _, [] => isTrue trivial
  | s, e :: es => @instDecidableAnd _ _ _ (Along.decidable p (step s e) es)

/-- **Exactness rule.** Suppose that, as long as a property holds, one permitted
step keeps it exactly when the step meets `cond`. Then a permitted run keeps the
property throughout exactly when all its steps meet `cond`. -/
theorem forall_states_iff_along {inv : σ → Prop} {legal cond : σ → ε → Prop}
    (hstep : ∀ s e, inv s → legal s e → (inv (step s e) ↔ cond s e)) {s : σ} {es : List ε}
    (hs : inv s) (hlegal : Along step legal s es) :
    (∀ t ∈ states step s es, inv t) ↔ Along step cond s es := by
  induction es generalizing s with
  | nil => simp
  | cons e es ih =>
    obtain ⟨he, hes⟩ := hlegal
    simp only [states_cons, List.mem_cons, forall_eq_or_imp, along_cons, hstep s e hs he]
    refine and_congr_right fun hcond => ?_
    exact ih ((hstep s e hs he).mpr hcond) hes

/-! ### Outputs -/

section Outputs

variable {τ ω : Type*} (step)

/-- What the run puts out, step by step. A step may put out nothing. -/
def outputs (out : σ → ε → Option ω) : σ → List ε → List ω
  | _, [] => []
  | s, e :: es => (out s e).toList ++ outputs out (step s e) es

variable {step} {step' : τ → ε → τ}

/-- **Simulation rule.** Machines whose states stay related put out the same as long as one
step does. -/
theorem outputs_eq_of_simulation (related : σ → τ → Prop) (allowed : ε → Prop)
    {out : σ → ε → Option ω} {out' : τ → ε → Option ω}
    (hstep : ∀ s t e, related s t → allowed e → related (step s e) (step' t e))
    (hout : ∀ s t e, related s t → allowed e → out s e = out' t e) {s : σ} {t : τ}
    {es : List ε} (hrelated : related s t) (hallowed : ∀ e ∈ es, allowed e) :
    outputs step out s es = outputs step' out' t es := by
  induction es generalizing s t with
  | nil => rfl
  | cons e es ih =>
    obtain ⟨he, hes⟩ := List.forall_mem_cons.mp hallowed
    rw [outputs, outputs, hout s t e hrelated he, ih (hstep s t e hrelated he) hes]

end Outputs

end Runs
