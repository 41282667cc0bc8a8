import TurrisBuild.Lib.Runs

/-!
# Helper tools

`helpers/generate_common.sh` builds two helpers from git repositories that it keeps
in a directory of tools, `usign` and the executables of `updater-ng`. Whether a
run builds is decided from the commit before and after the checkout and from a
test of the executables, which says the opposite in the two functions. A run may
be aborted by a checkout or a build that fails, and leaves behind what it did so
far.
-/

namespace TurrisBuild.HelperTools

/-- The repository of a tool: none, one without a commit, or one with `HEAD`. -/
inductive Head (C : Type*)
  | missing
  | unborn
  | commit (c : C)
  deriving DecidableEq

/-- An executable file: the commit it was built from, by a build that was completed
or not. -/
structure Executable (C : Type*) where
  commit : C
  completed : Bool
  deriving DecidableEq

/-- The directory of a tool with executables `P`. -/
structure Workdir (P C : Type*) where
  head : Head C
  executables : P → Option (Executable C)

/-- What becomes of the call of `git_checkout` in a run. -/
inductive Checkout (C : Type*)
  /-- It fails with `HEAD` where it was, after `git init` or not. -/
  | failsBefore (initialized : Bool)
  /-- It fails with `HEAD` moved already, in the update of the submodules. -/
  | failsAfter (c : C)
  | succeeds (c : C)

/-- What a failed build leaves of an executable. -/
inductive Leftover
  | kept
  | gone
  | written
  deriving DecidableEq

/-- What becomes of the build in a run, if there is one. -/
inductive Build (P : Type*)
  | fails (left : P → Leftover)
  | completes

/-- What can happen to the directory. -/
inductive Event (P C : Type*)
  | run (checkout : Checkout C) (build : Build P)
  | delete (p : P)

variable {P C : Type*}

/-- An executable after a build of the commit that failed. -/
def Leftover.apply (c : C) (old : Option (Executable C)) : Leftover → Option (Executable C)
  | .kept => old
  | .gone => none
  | .written => some ⟨c, false⟩

/-- The executables after a build of the commit. -/
def Build.apply (c : C) (old : P → Option (Executable C)) : Build P → P → Option (Executable C)
  | .fails left => fun p => (left p).apply c (old p)
  | .completes => fun _ => some ⟨c, true⟩

/-- The common part of the two functions, with what the test of the executables
says about them: the directory afterwards and whether the function returns. A
repository without a commit makes `git_local_hash` fail. -/
def getTool [DecidableEq C] (test : (P → Option (Executable C)) → Bool) (w : Workdir P C)
    (checkout : Checkout C) (build : Build P) : Workdir P C × Bool :=
  if w.head = .unborn then (w, false)
  else
    match checkout with
    | .failsBefore initialized =>
      ({ w with head := if w.head = .missing ∧ initialized then .unborn else w.head }, false)
    | .failsAfter c => ({ w with head := .commit c }, false)
    | .succeeds c =>
      if w.head ≠ .commit c ∨ test w.executables then
        (⟨.commit c, build.apply c w.executables⟩, build matches .completes)
      else ({ w with head := .commit c }, true)

/-- The one executable of usign. -/
inductive Usign
  | usign
  deriving DecidableEq

/-- The executables of updater-ng. -/
inductive Updater
  | pkgupdate
  | pkgtransaction
  deriving DecidableEq

/-- `get_usign` tests `[ -x "$USIGN" ]`. -/
def usignTest (executables : Usign → Option (Executable C)) : Bool := (executables .usign).isSome

/-- `get_updater_ng` tests `[ ! -x "$PKGUPDATE" ] || [ ! -x "$PKGTRANSACTION" ]`. -/
def updaterTest (executables : Updater → Option (Executable C)) : Bool :=
  !(executables .pkgupdate).isSome || !(executables .pkgtransaction).isSome

/-- `get_usign` -/
def getUsign [DecidableEq C] (w : Workdir Usign C) (checkout : Checkout C) (build : Build Usign) :
    Workdir Usign C × Bool :=
  getTool usignTest w checkout build

/-- `get_updater_ng` -/
def getUpdaterNg [DecidableEq C] (w : Workdir Updater C) (checkout : Checkout C)
    (build : Build Updater) : Workdir Updater C × Bool :=
  getTool updaterTest w checkout build

section Runs

variable (get : Workdir P C → Checkout C → Build P → Workdir P C × Bool)

/-- One event in a directory, where the function is run. -/
def step [DecidableEq P] (w : Workdir P C) : Event P C → Workdir P C
  | .run checkout build => (get w checkout build).1
  | .delete p => { w with executables := fun q => if q = p then none else w.executables q }

/-- The directory before the first run. -/
def Workdir.empty : Workdir P C := ⟨.missing, fun _ => none⟩

/-- Every executable is there, from a completed build of the commit at `HEAD`. -/
def Workdir.Current (w : Workdir P C) : Prop :=
  ∃ c, w.head = .commit c ∧ ∀ p, w.executables p = some ⟨c, true⟩

/-- If the event is a run that returns, the executables are current. -/
def ReturnsCurrent (w : Workdir P C) : Event P C → Prop
  | .run checkout build => (get w checkout build).2 = true → (get w checkout build).1.Current
  | .delete _ => True

end Runs

/-- A run whose checkout leaves `HEAD` where it is finds usign in place. -/
def FindsUsign (w : Workdir Usign C) : Event Usign C → Prop
  | .run (.succeeds c) _ => w.head = .commit c → w.executables .usign ≠ none
  | _ => True

/-- An executable of updater-ng is missing, or both are from completed builds of the
commit. -/
def Usable (c : C) (executables : Updater → Option (Executable C)) : Prop :=
  updaterTest executables = true ∨ ∀ p, executables p = some ⟨c, true⟩

/-- A run that is aborted with `HEAD` moved, or in the build, leaves no executables
in place that are not from completed builds of the commit it checked out. -/
def Spares (w : Workdir Updater C) : Event Updater C → Prop
  | .run (.failsAfter c) _ => w.head ≠ .unborn → Usable c w.executables
  | .run (.succeeds c) (.fails left) =>
    w.head ≠ .unborn → w.head ≠ .commit c ∨ updaterTest w.executables = true →
      Usable c fun p => (left p).apply c (w.executables p)
  | _ => True

/-- The executables in place are those of the commit at `HEAD`. -/
def Sound (w : Workdir Updater C) : Prop := ∀ c, w.head = .commit c → Usable c w.executables

/-! ### One run -/

/-- A completed build makes the executables current. -/
theorem current_of_build (c : C) (old : P → Option (Executable C)) :
    Workdir.Current ⟨.commit c, Build.completes.apply c old⟩ :=
  ⟨c, rfl, fun _ => rfl⟩

private theorem updaterTest_delete (p : Updater) (executables : Updater → Option (Executable C)) :
    updaterTest (fun q => if q = p then none else executables q) = true := by
  cases p <;> simp [updaterTest]

variable [DecidableEq C]

/-- A checkout that succeeds is followed by a build, or by a return that trusts the
executables. -/
theorem getTool_succeeds (test : (P → Option (Executable C)) → Bool) {w : Workdir P C}
    (hborn : w.head ≠ .unborn) (c : C) (build : Build P) :
    getTool test w (.succeeds c) build =
      if w.head ≠ .commit c ∨ test w.executables = true then
        (⟨.commit c, build.apply c w.executables⟩, build matches .completes)
      else (⟨.commit c, w.executables⟩, true) := by
  simp only [getTool, if_neg hborn]

/-- Only a run with a checkout that succeeds returns. -/
theorem getTool_returns {test : (P → Option (Executable C)) → Bool} {w : Workdir P C}
    {checkout : Checkout C} {build : Build P}
    (hreturns : (getTool test w checkout build).2 = true) :
    w.head ≠ .unborn ∧ ∃ c, checkout = .succeeds c := by
  unfold getTool at hreturns
  split at hreturns
  next => cases hreturns
  next hborn =>
    refine ⟨hborn, ?_⟩
    cases checkout with
    | failsBefore initialized => cases hreturns
    | failsAfter c => cases hreturns
    | succeeds c => exact ⟨c, rfl⟩

/-- **A run of `get_usign`.** It returns a current usign exactly when it does not miss
the executable of the commit that was checked out already. -/
theorem getUsign_current_iff (w : Workdir Usign C) (e : Event Usign C) :
    ReturnsCurrent getUsign w e ↔ FindsUsign w e := by
  cases e with
  | delete p => exact Iff.rfl
  | run checkout build =>
    simp only [ReturnsCurrent, getUsign]
    constructor
    · intro hcurrent
      cases checkout with
      | failsBefore initialized => trivial
      | failsAfter c => trivial
      | succeeds c =>
        intro hhead hmissing
        have hborn : w.head ≠ .unborn := by simp [hhead]
        have htrusts : ¬(w.head ≠ .commit c ∨ usignTest w.executables = true) := by
          simp [hhead, usignTest, hmissing]
        rw [getTool_succeeds _ hborn, if_neg htrusts] at hcurrent
        obtain ⟨d, -, hd⟩ := hcurrent rfl
        have hsome := hd .usign
        rw [hmissing] at hsome
        cases hsome
    · intro hfinds hreturns
      obtain ⟨hborn, c, rfl⟩ := getTool_returns hreturns
      have hbuilds : w.head ≠ .commit c ∨ usignTest w.executables = true := by
        by_cases hhead : w.head = .commit c
        · exact .inr (Option.isSome_iff_ne_none.mpr (hfinds hhead))
        · exact .inl hhead
      rw [getTool_succeeds _ hborn, if_pos hbuilds] at hreturns ⊢
      cases build with
      | fails left => cases hreturns
      | completes => exact current_of_build c w.executables

/-- In a sound directory `get_updater_ng` returns current executables. -/
theorem Sound.returnsCurrent {w : Workdir Updater C} (hw : Sound w) (e : Event Updater C) :
    ReturnsCurrent getUpdaterNg w e := by
  cases e with
  | delete p => trivial
  | run checkout build =>
    simp only [ReturnsCurrent, getUpdaterNg]
    intro hreturns
    obtain ⟨hborn, c, rfl⟩ := getTool_returns hreturns
    by_cases hbuilds : w.head ≠ .commit c ∨ updaterTest w.executables = true
    · rw [getTool_succeeds _ hborn, if_pos hbuilds] at hreturns ⊢
      cases build with
      | fails left => cases hreturns
      | completes => exact current_of_build c w.executables
    · rw [getTool_succeeds _ hborn, if_neg hbuilds]
      push Not at hbuilds
      exact ⟨c, rfl, (hw c hbuilds.1).resolve_left hbuilds.2⟩

/-- In any other directory it returns executables of something else as soon as it is
run for the commit at `HEAD`. -/
theorem exists_stale_return {w : Workdir Updater C} (hw : ¬ Sound w) :
    ∃ c, w.head = .commit c ∧ ∀ build, (getUpdaterNg w (.succeeds c) build).2 = true ∧
      ¬ (getUpdaterNg w (.succeeds c) build).1.Current := by
  simp only [Sound, Usable] at hw
  push Not at hw
  obtain ⟨c, hhead, htest, p, hp⟩ := hw
  refine ⟨c, hhead, fun build => ?_⟩
  have htrusts : ¬(w.head ≠ .commit c ∨ updaterTest w.executables = true) := by
    simp [hhead, htest]
  rw [getUpdaterNg, getTool_succeeds _ (by simp [hhead]), if_neg htrusts]
  refine ⟨rfl, ?_⟩
  rintro ⟨d, hd, hcurrent⟩
  obtain rfl : c = d := by simpa using hd
  exact hp (hcurrent p)

/-- **One event.** A directory of updater-ng stays sound exactly when the event spares
it. -/
theorem step_sound_iff {w : Workdir Updater C} {e : Event Updater C} (hw : Sound w) :
    Sound (step getUpdaterNg w e) ↔ Spares w e := by
  have hat (c : C) (executables : Updater → Option (Executable C)) :
      Sound ⟨.commit c, executables⟩ ↔ Usable c executables := by
    simp [Sound]
  cases e with
  | delete p =>
    simp only [Spares, iff_true]
    exact fun c _ => .inl (updaterTest_delete p w.executables)
  | run checkout build =>
    by_cases hborn : w.head = .unborn
    · have hsame : step getUpdaterNg w (.run checkout build) = w := by
        simp [step, getUpdaterNg, getTool, hborn]
      rw [hsame]
      refine iff_of_true hw ?_
      cases checkout with
      | failsBefore initialized => trivial
      | failsAfter c => exact fun h => absurd hborn h
      | succeeds c =>
        cases build with
        | fails left => exact fun h => absurd hborn h
        | completes => trivial
    · cases checkout with
      | failsBefore initialized =>
        simp only [step, getUpdaterNg, getTool, if_neg hborn, Spares, iff_true]
        intro c hhead
        simp only at hhead
        split at hhead
        next => cases hhead
        next => exact hw c hhead
      | failsAfter c =>
        simp only [step, getUpdaterNg, getTool, if_neg hborn, Spares, hat]
        exact ⟨fun h _ => h, fun h => h hborn⟩
      | succeeds c =>
        simp only [step, getUpdaterNg, getTool_succeeds _ hborn]
        by_cases hbuilds : w.head ≠ .commit c ∨ updaterTest w.executables = true
        · rw [if_pos hbuilds, hat]
          cases build with
          | fails left => exact ⟨fun h _ _ => h, fun h => h hborn hbuilds⟩
          | completes => exact iff_of_true (.inr fun _ => rfl) trivial
        · rw [if_neg hbuilds, hat]
          have hhead : w.head = .commit c := by
            by_contra hne
            exact hbuilds (.inl hne)
          refine iff_of_true (hw c hhead) ?_
          cases build with
          | fails left => exact fun _ h => absurd h hbuilds
          | completes => trivial

/-! ### Sequences of runs -/

/-- Along every sequence of events a directory of updater-ng is sound exactly when
every event spares it. -/
theorem sound_iff (events : List (Event Updater C)) :
    (∀ w ∈ Runs.states (step getUpdaterNg) .empty events, Sound w) ↔
      Runs.Along (step getUpdaterNg) Spares .empty events := by
  have hlegal : Runs.Along (step getUpdaterNg) (fun _ _ => True) (.empty : Workdir Updater C)
      events := Runs.along_of_forall (fun _ _ => trivial) _ _
  refine Runs.forall_states_iff_along (fun w e hw _ => step_sound_iff hw) ?_ hlegal
  simp [Sound, Workdir.empty]

/-- The condition is exact: every event spares the directory exactly when, after each
of them, whatever run comes next returns current executables. -/
theorem spares_iff (events : List (Event Updater C)) :
    Runs.Along (step getUpdaterNg) Spares .empty events ↔
      ∀ w ∈ Runs.states (step getUpdaterNg) .empty events, ∀ e,
        ReturnsCurrent getUpdaterNg w e := by
  rw [← sound_iff]
  refine forall₂_congr fun w _ => ⟨fun hw e => hw.returnsCurrent e, fun hcurrent => ?_⟩
  by_contra hw
  obtain ⟨c, -, hstale⟩ := exists_stale_return hw
  obtain ⟨hreturns, hnot⟩ := hstale .completes
  exact hnot (hcurrent (.run (.succeeds c) .completes) hreturns)

/-- **The tools are those of the commit.** In every sequence of runs and deletions,
`get_usign` returns with a current executable every time exactly when no run misses
the executable of the commit that was checked out already, and `get_updater_ng`
returns with current executables every time if no aborted run leaves others in
place. -/
theorem helper_tools_current (usignEvents : List (Event Usign C))
    (updaterEvents : List (Event Updater C)) :
    (Runs.Along (step getUsign) (ReturnsCurrent getUsign) .empty usignEvents ↔
      Runs.Along (step getUsign) FindsUsign .empty usignEvents) ∧
    (Runs.Along (step getUpdaterNg) Spares .empty updaterEvents →
      Runs.Along (step getUpdaterNg) (ReturnsCurrent getUpdaterNg) .empty updaterEvents) := by
  constructor
  · exact Runs.along_congr getUsign_current_iff _ _
  · refine Runs.along_of_invariant (fun w e hw => (step_sound_iff hw).mpr)
      (fun w e hw => hw.returnsCurrent e) ?_
    simp [Sound, Workdir.empty]

/-- Two commits are built one after the other, the second one with a build that fails
at first and has removed an executable. -/
theorem rebuilt_tools_current :
    Runs.Along (step getUsign) (ReturnsCurrent getUsign) (.empty : Workdir Usign ℕ)
      [.run (.succeeds 1) .completes, .run (.succeeds 1) .completes,
        .run (.succeeds 2) .completes] ∧
    Runs.Along (step getUpdaterNg) (ReturnsCurrent getUpdaterNg) (.empty : Workdir Updater ℕ)
      [.run (.succeeds 1) .completes, .run (.succeeds 2) (.fails fun _ => .gone),
        .run (.succeeds 2) .completes] := by
  have htools := helper_tools_current (C := ℕ)
    [.run (.succeeds 1) .completes, .run (.succeeds 1) .completes, .run (.succeeds 2) .completes]
    [.run (.succeeds 1) .completes, .run (.succeeds 2) (.fails fun _ => .gone),
      .run (.succeeds 2) .completes]
  refine ⟨htools.1.mpr ?_, htools.2 ?_⟩
  · simp [FindsUsign, step, getUsign, getTool, Workdir.empty, Build.apply]
  · simp [Spares, Usable, updaterTest, step, getUpdaterNg, getTool, Workdir.empty, Build.apply,
      Leftover.apply]

/-- usign is deleted and not built again for the same commit, and the executables of
updater-ng are still those of the first commit after a build of the second one has
failed once. -/
theorem missing_and_stale_tools :
    ¬ Runs.Along (step getUsign) (ReturnsCurrent getUsign) (.empty : Workdir Usign ℕ)
      [.run (.succeeds 1) .completes, .delete .usign, .run (.succeeds 1) .completes] ∧
    ¬ Runs.Along (step getUpdaterNg) (ReturnsCurrent getUpdaterNg) (.empty : Workdir Updater ℕ)
      [.run (.succeeds 1) .completes, .run (.succeeds 2) (.fails fun _ => .kept),
        .run (.succeeds 2) .completes] := by
  constructor
  · simp [ReturnsCurrent, Workdir.Current, step, getUsign, getTool, usignTest, Workdir.empty,
      Build.apply]
    exact ⟨.usign⟩
  · simp [ReturnsCurrent, Workdir.Current, step, getUpdaterNg, getTool, updaterTest, Workdir.empty,
      Build.apply, Leftover.apply]
    exact ⟨.pkgupdate⟩

end TurrisBuild.HelperTools
