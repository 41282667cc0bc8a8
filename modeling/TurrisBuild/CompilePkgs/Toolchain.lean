import Mathlib.Data.List.DropRight
import TurrisBuild.CompilePkgs.Steps
import TurrisBuild.Lib.Outcome

/-!
# Tools and toolchain before the target

The functions that compile the tools and the toolchain are skipped when either of them
is prebuilt, while `prepare_tools` looks at each one on its own. So a run in which only
one of them is prebuilt compiles the target without the other one.
-/

namespace TurrisBuild.CompilePkgs

open Outcome

/-! ### What a run does to the record -/

/-- The part of the state that decides about the record of the run. -/
structure View where
  prebuilt : Part → Bool
  provided : Part → Bool
  prepared : Bool
  moments : List Moment

/-- The view of a state. -/
def State.view {C : Type} (s : State C) : View := ⟨s.prebuilt, s.provided, s.prepared, s.moments⟩

/-- No part is prebuilt. -/
def nonePrebuilt (prebuilt : Part → Bool) : Bool := !(prebuilt .tools || prebuilt .toolchain)

/-- A part is provided. -/
def View.provide (v : View) (part : Part) : View :=
  { v with provided := Function.update v.provided part true }

/-- A part is compiled, unless there is a prebuilt one. -/
def View.compilePart (v : View) (part : Part) : View :=
  if nonePrebuilt v.prebuilt then v.provide part else v

/-- A prebuilt part is extracted. -/
def View.prebuiltPart (v : View) (part : Part) : View :=
  { v.provide part with prebuilt := Function.update v.prebuilt part true }

/-- The target or the packages are compiled. -/
def View.record (v : View) : View := { v with moments := v.moments ++ [⟨v.prepared, v.provided⟩] }

/-- Nothing is left. -/
def View.clean (v : View) : View := { v with provided := fun _ => false }

/-- A part as `prepare_tools` provides it. -/
def View.preparePart (v : View) (part : Part) : View :=
  if v.prebuilt part then v.prebuiltPart part else v.compilePart part

/-- What a command does to the view. -/
def View.step (v : View) : Command → View
  | .compileTools => v.compilePart .tools
  | .compileToolchain => v.compilePart .toolchain
  | .prebuiltTools => v.prebuiltPart .tools
  | .prebuiltToolchain => v.prebuiltPart .toolchain
  | .compileTarget => v.record
  | .compilePackages => v.record
  | .compile => v.record
  | .clean => v.clean
  | .prepare => v.clean
  | .prepareTools =>
    ((({ v with prepared := true }.clean).preparePart .tools).preparePart .toolchain).record
  | _ => v

section Refinement

variable {C : Type} {m : Machine C} {settings : Settings} {s s' : State C}

private theorem perform_view {effect : Files C → Option (Files C)}
    (hstep : perform effect s = .ok s') : s'.view = s.view := by
  unfold perform at hstep
  split at hstep
  · obtain rfl := Except.ok.inj hstep
    rfl
  · cases hstep

private theorem compilePart_view {part : Part} (hstep : compilePart m part s = .ok s') :
    s'.view = s.view.compilePart part := by
  unfold compilePart at hstep
  unfold View.compilePart
  have hnone : nonePrebuilt s.view.prebuilt = !s.anyPrebuilt := rfl
  rw [hnone]
  split at hstep
  next hany =>
    obtain rfl := Except.ok.inj hstep
    rw [hany]
    rfl
  next hany =>
    obtain ⟨t, ht, hs'⟩ := bind_eq_ok_iff.mp hstep
    obtain rfl := Except.ok.inj hs'
    rw [if_pos (by simpa using hany), ← perform_view ht]
    rfl

private theorem fetchTar_view {part : Part} {board : Board}
    (hstep : fetchTar m settings part board s = .ok s') : s'.view = s.view := by
  unfold fetchTar at hstep
  split at hstep
  · obtain rfl := Except.ok.inj hstep
    rfl
  · split at hstep
    · cases hstep
    · obtain rfl := Except.ok.inj hstep
      rfl

private theorem extractTar_view {part : Part} {entry : Option C}
    (hstep : extractTar m part entry s = .ok s') :
    s'.view = s.view.provide part := by
  unfold extractTar at hstep
  split at hstep
  · cases hstep
  · simp only at hstep
    split at hstep
    · cases hstep
    · obtain ⟨t, ht, hs'⟩ := bind_eq_ok_iff.mp hstep
      obtain rfl := Except.ok.inj hs'
      have hview := perform_view ht
      change ({ t.view with provided := Function.update t.view.provided part true } : View) = _
      rw [hview]
      rfl

private theorem prebuiltPart_view {part : Part} (hstep : prebuiltPart m settings part s = .ok s') :
    s'.view = s.view.prebuiltPart part := by
  unfold prebuiltPart at hstep
  simp only at hstep
  split at hstep
  · cases hstep
  · split at hstep
    · cases hstep
    · obtain ⟨t, ht, hs'⟩ := bind_eq_ok_iff.mp hstep
      rw [extractTar_view hs', fetchTar_view ht]
      rfl

private theorem compileAt_view {product : MakeTarget} (hstep : compileAt m product s = .ok s') :
    s'.view = s.view.record :=
  perform_view hstep

private theorem clean_view (hstep : clean m s = .ok s') : s'.view = s.view.clean := by
  obtain rfl := Except.ok.inj hstep
  rfl

/-- The functions that are skipped for a prebuilt part. -/
private theorem compileSDK_view (hstep : compileSDK m s = .ok s') : s'.view = s.view := by
  unfold compileSDK at hstep
  split at hstep
  · rw [Except.ok.inj hstep]
  · split at hstep
    · exact perform_view hstep
    · rw [Except.ok.inj hstep]

private theorem packageTools_view (hstep : packageTools m s = .ok s') : s'.view = s.view := by
  unfold packageTools at hstep
  split at hstep
  · rw [Except.ok.inj hstep]
  · exact perform_view hstep

private theorem packageToolchain_view (hstep : packageToolchain m s = .ok s') :
    s'.view = s.view := by
  unfold packageToolchain at hstep
  split at hstep
  · rw [Except.ok.inj hstep]
  · split at hstep
    · exact perform_view hstep
    · rw [Except.ok.inj hstep]

private theorem compile_view (hstep : compile m s = .ok s') : s'.view = s.view.record := by
  obtain ⟨t₃, h₃, hs'⟩ := bind_eq_ok_iff.mp hstep
  obtain ⟨t₂, h₂, h₃⟩ := bind_eq_ok_iff.mp h₃
  obtain ⟨t₁, h₁, h₂⟩ := bind_eq_ok_iff.mp h₂
  rw [compileAt_view hs', packageToolchain_view h₃, packageTools_view h₂, compileSDK_view h₁]

private theorem prepare_view (hstep : prepare m s = .ok s') : s'.view = s.view.clean := by
  obtain ⟨t₆, h₆, hs'⟩ := bind_eq_ok_iff.mp hstep
  obtain ⟨t₅, h₅, h₆⟩ := bind_eq_ok_iff.mp h₆
  obtain ⟨t₄, h₄, h₅⟩ := bind_eq_ok_iff.mp h₅
  obtain ⟨t₃, h₃, h₄⟩ := bind_eq_ok_iff.mp h₄
  obtain ⟨t₂, h₂, h₃⟩ := bind_eq_ok_iff.mp h₃
  obtain ⟨t₁, h₁, h₂⟩ := bind_eq_ok_iff.mp h₂
  rw [perform_view hs', perform_view h₆, perform_view h₅, perform_view h₄, perform_view h₃,
    clean_view h₂, perform_view h₁]

private theorem preparePart_view {part : Part}
    (hstep : (if s.prebuilt part then prebuiltPart m settings part s else compilePart m part s) =
      .ok s') : s'.view = s.view.preparePart part := by
  unfold View.preparePart
  by_cases hprebuilt : s.prebuilt part = true
  · rw [if_pos hprebuilt] at hstep
    rw [if_pos (show s.view.prebuilt part = true from hprebuilt), prebuiltPart_view hstep]
  · rw [if_neg hprebuilt] at hstep
    rw [if_neg (show ¬s.view.prebuilt part = true from hprebuilt), compilePart_view hstep]

private theorem prepareTools_view (hstep : prepareTools m settings s = .ok s') :
    s'.view = s.view.step .prepareTools := by
  obtain ⟨t₃, h₃, hs'⟩ := bind_eq_ok_iff.mp hstep
  obtain ⟨t₂, h₂, h₃⟩ := bind_eq_ok_iff.mp h₃
  obtain ⟨t₁, h₁, h₂⟩ := bind_eq_ok_iff.mp h₂
  rw [compileAt_view hs', preparePart_view h₃, preparePart_view h₂, prepare_view h₁]
  rfl

/-- A command that succeeds does to the view what it is supposed to. -/
theorem exec_view {command : Command} (hstep : exec m settings command s = .ok s') :
    s'.view = s.view.step command := by
  cases command with
  | compileTools => exact compilePart_view hstep
  | compileToolchain => exact compilePart_view hstep
  | prebuiltTools => exact prebuiltPart_view hstep
  | prebuiltToolchain => exact prebuiltPart_view hstep
  | compileTarget => exact compileAt_view hstep
  | compilePackages => exact compileAt_view hstep
  | compile => exact compile_view hstep
  | clean => exact clean_view hstep
  | prepare => exact prepare_view hstep
  | prepareTools => exact prepareTools_view hstep
  | compileSDK => exact compileSDK_view hstep
  | packageTools => exact packageTools_view hstep
  | packageToolchain => exact packageToolchain_view hstep
  | _ => exact perform_view hstep

/-- A run that succeeds. -/
theorem runSteps_view {commands : List Command} (hrun : runSteps m settings commands s = .ok s') :
    s'.view = commands.foldl View.step s.view := by
  induction commands using List.reverseRecOn generalizing s' with
  | nil =>
    obtain rfl := Except.ok.inj hrun
    rfl
  | append_singleton commands command ih =>
    obtain ⟨t, ht, hs'⟩ := foldlM_concat_eq_ok_iff.mp hrun
    rw [List.foldl_append, ← ih ht]
    exact exec_view hs'

end Refinement

/-! ### Conditions on the command line -/

/-- The command that extracts a prebuilt part. -/
def Part.prebuiltCommand : Part → Command
  | tools => .prebuiltTools
  | toolchain => .prebuiltToolchain

/-- The command that compiles a part. -/
def Part.compileCommand : Part → Command
  | tools => .compileTools
  | toolchain => .compileToolchain

/-- The commands that run `clean`. -/
def Command.cleans (command : Command) : Bool := command ∈ [clean, prepare, prepareTools]

/-- The commands that compile the target or the packages, besides `prepare_tools`. -/
def Command.compiles (command : Command) : Bool :=
  command ∈ [compileTarget, compilePackages, compile]

variable (flags : Part → Bool)

/-- After these commands the part is a prebuilt one, by an option or by one of them. -/
def Prebuilt (before : List Command) (part : Part) : Prop :=
  flags part = true ∨ part.prebuiltCommand ∈ before

/-- The commands up to the last one that runs `clean`. -/
def uptoClean (before : List Command) : List Command := before.rdropWhile (!·.cleans)

/-- The commands since then. -/
def sinceClean (before : List Command) : List Command := before.rtakeWhile (!·.cleans)

/-- A command since the last `clean` has extracted the part, or has compiled it while no
part was prebuilt. -/
def ProvidedSince (before : List Command) (part : Part) : Prop :=
  part.prebuiltCommand ∈ sinceClean before ∨
    ∃ pre post, sinceClean before = pre ++ part.compileCommand :: post ∧
      ∀ other, ¬Prebuilt flags (uptoClean before ++ pre) other

/-- The condition on a command after others: `prepare_tools` finds both parts prebuilt or
none, and if a later `clean` has removed what it has provided, commands have provided both
parts again. -/
structure StepReady (before : List Command) (command : Command) : Prop where
  agree : command = .prepareTools →
    (Prebuilt flags before .tools ↔ Prebuilt flags before .toolchain)
  again : command.compiles → .prepareTools ∈ before →
    (uptoClean before).getLast? ≠ some .prepareTools → ∀ part, ProvidedSince flags before part

/-- The target and the packages are compiled with both parts, at and after `prepare_tools`. -/
def AllReady (moments : List Moment) : Prop :=
  ∀ moment ∈ moments, moment.prepared = true → ∀ part, moment.provided part = true

/-! ### The record of a run -/

section Record

variable {flags}

private theorem compilePart_eq (v : View) (part : Part) :
    v.compilePart part = ⟨v.prebuilt, Function.update v.provided part
      (v.provided part || nonePrebuilt v.prebuilt), v.prepared, v.moments⟩ := by
  unfold View.compilePart
  split
  next hnone => simp [hnone, View.provide]
  next hsome => simp [hsome]

private theorem preparePart_eq (v : View) (part : Part) :
    v.preparePart part = ⟨v.prebuilt, Function.update v.provided part
      (v.provided part || v.prebuilt part || nonePrebuilt v.prebuilt), v.prepared, v.moments⟩ := by
  unfold View.preparePart
  split
  next hprebuilt =>
    have hkeep : Function.update v.prebuilt part true = v.prebuilt := by
      rw [← hprebuilt, Function.update_eq_self]
    simp [View.prebuiltPart, View.provide, hkeep, hprebuilt]
  next hprebuilt => simp [compilePart_eq, hprebuilt]

/-- What `prepare_tools` provides. -/
private theorem step_prepareTools (v : View) :
    v.step .prepareTools = View.record
      ⟨v.prebuilt, fun part => v.prebuilt part || nonePrebuilt v.prebuilt, true, v.moments⟩ := by
  rw [View.step, preparePart_eq, preparePart_eq]
  refine congrArg (fun provided => View.record ⟨v.prebuilt, provided, true, v.moments⟩) ?_
  funext part
  cases part with
  | tools => simp [View.clean]
  | toolchain => simp [View.clean]

/-- The parts that are prebuilt after a command. -/
private theorem step_prebuilt (v : View) (command : Command) (part : Part) :
    (v.step command).prebuilt part = true ↔
      v.prebuilt part = true ∨ part.prebuiltCommand = command := by
  cases command <;> cases part <;>
    simp [View.step, preparePart_eq, compilePart_eq, View.prebuiltPart, View.provide, View.clean,
      View.record, Part.prebuiltCommand]

private theorem step_prepared (v : View) (command : Command) :
    (v.step command).prepared = true ↔ v.prepared = true ∨ .prepareTools = command := by
  cases command <;>
    simp [View.step, preparePart_eq, compilePart_eq, View.prebuiltPart, View.provide, View.clean,
      View.record]

/-- The parts that are provided after a command that does not run `clean`. -/
private theorem step_provided (v : View) {command : Command} (hcleans : command.cleans = false)
    (part : Part) :
    (v.step command).provided part = true ↔
      v.provided part = true ∨ part.prebuiltCommand = command ∨
        part.compileCommand = command ∧ nonePrebuilt v.prebuilt = true := by
  cases command <;> cases part <;>
    simp_all [View.step, compilePart_eq, View.prebuiltPart, View.provide, View.record,
      Part.prebuiltCommand, Part.compileCommand, Command.cleans]

/-- The moments that a command adds to the record. -/
private theorem step_moments (v : View) (command : Command) :
    (v.step command).moments = v.moments ++
      if command.compiles then [⟨v.prepared, v.provided⟩]
      else if command = .prepareTools then
        [⟨true, fun part => v.prebuilt part || nonePrebuilt v.prebuilt⟩]
      else [] := by
  cases command with
  | prepareTools => rw [step_prepareTools]; rfl
  | compileTools => simp [View.step, compilePart_eq, Command.compiles]
  | compileToolchain => simp [View.step, compilePart_eq, Command.compiles]
  | _ =>
    simp [View.step, View.prebuiltPart, View.provide, View.clean, View.record, Command.compiles]

/-- The view after commands. -/
private def viewAfter (flags : Part → Bool) (commands : List Command) : View :=
  commands.foldl View.step ⟨flags, fun _ => false, false, []⟩

private theorem viewAfter_concat (commands : List Command) (command : Command) :
    viewAfter flags (commands ++ [command]) = (viewAfter flags commands).step command := by
  rw [viewAfter, List.foldl_append]
  rfl

private theorem viewAfter_prebuilt (commands : List Command) (part : Part) :
    (viewAfter flags commands).prebuilt part = true ↔ Prebuilt flags commands part := by
  induction commands using List.reverseRecOn with
  | nil => simp [viewAfter, Prebuilt]
  | append_singleton commands command ih =>
    rw [viewAfter_concat, step_prebuilt, ih]
    simp [Prebuilt, or_assoc]

private theorem viewAfter_nonePrebuilt (commands : List Command) :
    nonePrebuilt (viewAfter flags commands).prebuilt = true ↔
      ∀ part, ¬Prebuilt flags commands part := by
  simp only [nonePrebuilt, Bool.not_eq_true', Bool.or_eq_false_iff, ← viewAfter_prebuilt,
    Bool.not_eq_true]
  constructor
  · rintro ⟨htools, htoolchain⟩ part
    cases part with
    | tools => exact htools
    | toolchain => exact htoolchain
  · intro hnone
    exact ⟨hnone .tools, hnone .toolchain⟩

private theorem viewAfter_prepared (commands : List Command) :
    (viewAfter flags commands).prepared = true ↔ .prepareTools ∈ commands := by
  induction commands using List.reverseRecOn with
  | nil => simp [viewAfter]
  | append_singleton commands command ih =>
    rw [viewAfter_concat, step_prepared, ih]
    simp

private theorem uptoClean_append_sinceClean (commands : List Command) :
    uptoClean commands ++ sinceClean commands = commands :=
  List.rdropWhile_append_rtakeWhile

private theorem providedSince_of_cleans {command : Command} (hcleans : command.cleans = true)
    (commands : List Command) (part : Part) :
    ¬ProvidedSince flags (commands ++ [command]) part := by
  have hsince : sinceClean (commands ++ [command]) = [] :=
    List.rtakeWhile_concat_neg _ _ _ (by simp [hcleans])
  rintro (hmem | ⟨pre, post, hsplit, -⟩)
  · rw [hsince] at hmem
    exact absurd hmem List.not_mem_nil
  · rw [hsince] at hsplit
    exact absurd hsplit.symm (by simp)

private theorem providedSince_concat {command : Command} (hcleans : command.cleans = false)
    (commands : List Command) (part : Part) :
    ProvidedSince flags (commands ++ [command]) part ↔
      ProvidedSince flags commands part ∨ part.prebuiltCommand = command ∨
        part.compileCommand = command ∧ ∀ other, ¬Prebuilt flags commands other := by
  have hsince : sinceClean (commands ++ [command]) = sinceClean commands ++ [command] :=
    List.rtakeWhile_concat_pos _ _ _ (by simp [hcleans])
  have hupto : uptoClean (commands ++ [command]) = uptoClean commands :=
    List.rdropWhile_concat_pos _ _ _ (by simp [hcleans])
  simp only [ProvidedSince, hsince, hupto, List.mem_append, List.mem_singleton]
  constructor
  · rintro ((hmem | heq) | ⟨pre, post, hsplit, hnone⟩)
    · exact .inl (.inl hmem)
    · exact .inr (.inl heq)
    · rcases List.eq_nil_or_concat post with rfl | ⟨post, last, rfl⟩
      · obtain ⟨rfl, heq⟩ := List.append_inj' hsplit rfl
        rw [uptoClean_append_sinceClean] at hnone
        exact .inr (.inr ⟨by simpa using heq.symm, hnone⟩)
      · rw [List.concat_eq_append, ← List.cons_append, ← List.append_assoc] at hsplit
        exact .inl (.inr ⟨pre, post, List.append_inj_left' hsplit rfl, hnone⟩)
  · rintro ((hmem | ⟨pre, post, hsplit, hnone⟩) | heq | ⟨heq, hnone⟩)
    · exact .inl (.inl hmem)
    · exact .inr ⟨pre, post ++ [command], by simp [hsplit], hnone⟩
    · exact .inl (.inr heq)
    · refine .inr ⟨sinceClean commands, [], by rw [heq], ?_⟩
      rwa [uptoClean_append_sinceClean]

/-- What is provided after commands: by `prepare_tools`, if nothing was removed since, and by
the commands since the last `clean`. -/
private theorem viewAfter_provided (commands : List Command) (part : Part) :
    (viewAfter flags commands).provided part = true ↔
      (uptoClean commands).getLast? = some .prepareTools ∧
          (Prebuilt flags (uptoClean commands) part ∨
            ∀ other, ¬Prebuilt flags (uptoClean commands) other) ∨
        ProvidedSince flags commands part := by
  induction commands using List.reverseRecOn with
  | nil => simp [viewAfter, uptoClean, sinceClean, ProvidedSince]
  | append_singleton commands command ih =>
    rw [viewAfter_concat]
    by_cases hcleans : command.cleans = true
    · have hupto : uptoClean (commands ++ [command]) = commands ++ [command] :=
        List.rdropWhile_concat_neg _ _ _ (by simp [hcleans])
      rw [hupto, List.getLast?_concat, or_iff_left (providedSince_of_cleans hcleans _ _)]
      by_cases heq : command = .prepareTools
      · subst heq
        have hprebuilt (p : Part) :
            Prebuilt flags (commands ++ [.prepareTools]) p ↔ Prebuilt flags commands p := by
          cases p <;> simp [Prebuilt, Part.prebuiltCommand]
        rw [step_prepareTools]
        simp only [View.record, Bool.or_eq_true, viewAfter_prebuilt, viewAfter_nonePrebuilt,
          hprebuilt, true_and]
      · have hclean : (viewAfter flags commands).step command =
            (viewAfter flags commands).clean := by
          cases command <;> simp_all [Command.cleans, View.step]
        rw [hclean]
        simp [View.clean, heq]
    · rw [Bool.not_eq_true] at hcleans
      have hupto : uptoClean (commands ++ [command]) = uptoClean commands :=
        List.rdropWhile_concat_pos _ _ _ (by simp [hcleans])
      rw [step_provided _ hcleans, ih, hupto, providedSince_concat hcleans,
        viewAfter_nonePrebuilt, or_assoc]

/-- All places in a list with one more element. -/
private theorem forall_split_concat {p : List Command → Command → Prop} {commands : List Command}
    {command : Command} :
    (∀ before c after, commands ++ [command] = before ++ c :: after → p before c) ↔
      (∀ before c after, commands = before ++ c :: after → p before c) ∧ p commands command := by
  constructor
  · intro hall
    refine ⟨fun before c after hsplit => ?_, hall commands command [] rfl⟩
    exact hall before c (after ++ [command]) (by simp [hsplit])
  · rintro ⟨hall, hlast⟩ before c after hsplit
    rcases List.eq_nil_or_concat after with rfl | ⟨after, last, rfl⟩
    · obtain ⟨rfl, heq⟩ := List.append_inj' hsplit rfl
      rwa [← List.singleton_inj.mp heq]
    · rw [List.concat_eq_append, ← List.cons_append, ← List.append_assoc] at hsplit
      exact hall before c after (List.append_inj_left' hsplit rfl)

/-- Both parts are prebuilt or none. -/
private theorem agree_iff {commands : List Command} :
    (∀ part, Prebuilt flags commands part ∨ ∀ other, ¬Prebuilt flags commands other) ↔
      (Prebuilt flags commands .tools ↔ Prebuilt flags commands .toolchain) := by
  constructor
  · intro hall
    constructor
    · intro htools
      exact (hall .toolchain).resolve_right fun hnone => hnone .tools htools
    · intro htoolchain
      exact (hall .tools).resolve_right fun hnone => hnone .toolchain htoolchain
  · intro hagree part
    by_cases htools : Prebuilt flags commands .tools
    · refine .inl ?_
      cases part with
      | tools => exact htools
      | toolchain => exact hagree.mp htools
    · refine .inr fun other => ?_
      cases other with
      | tools => exact htools
      | toolchain => exact mt hagree.mpr htools

/-- After commands that meet the condition, what `prepare_tools` has provided is there. -/
private theorem provided_of_stepReady {commands : List Command}
    (hready : ∀ before c after, commands = before ++ c :: after → StepReady flags before c)
    (hlast : (uptoClean commands).getLast? = some .prepareTools) (part : Part) :
    (viewAfter flags commands).provided part = true := by
  obtain ⟨before, hbefore⟩ := List.getLast?_eq_some_iff.mp hlast
  have hsplit : commands = before ++ .prepareTools :: sinceClean commands := by
    conv_lhs => rw [← uptoClean_append_sinceClean commands, hbefore]
    simp
  have hagree := agree_iff.mpr ((hready before _ _ hsplit).agree rfl) part
  have hprebuilt (p : Part) : Prebuilt flags (uptoClean commands) p ↔ Prebuilt flags before p := by
    rw [hbefore]
    cases p <;> simp [Prebuilt, Part.prebuiltCommand]
  rw [viewAfter_provided]
  simp only [hprebuilt]
  exact .inl ⟨hlast, hagree⟩

/-- The moments of the next command. -/
private theorem allReady_concat {commands : List Command} {command : Command} :
    AllReady (viewAfter flags (commands ++ [command])).moments ↔
      AllReady (viewAfter flags commands).moments ∧
        (command.compiles → .prepareTools ∈ commands →
          ∀ part, (viewAfter flags commands).provided part = true) ∧
        (command = .prepareTools →
          ∀ part, Prebuilt flags commands part ∨ ∀ other, ¬Prebuilt flags commands other) := by
  rw [viewAfter_concat, step_moments, AllReady, List.forall_mem_append]
  refine and_congr_right fun _ => ?_
  by_cases hcompiles : command.compiles = true
  · have hne : command ≠ .prepareTools := by
      rintro rfl
      exact absurd hcompiles (by decide)
    simp [hcompiles, hne, viewAfter_prepared]
  · by_cases heq : command = .prepareTools
    · subst heq
      simp [hcompiles, viewAfter_prebuilt, viewAfter_nonePrebuilt]
    · simp [hcompiles, heq]

private theorem allReady_iff (commands : List Command) :
    AllReady (viewAfter flags commands).moments ↔
      ∀ before c after, commands = before ++ c :: after → StepReady flags before c := by
  induction commands using List.reverseRecOn with
  | nil => simp [viewAfter, AllReady]
  | append_singleton commands command ih =>
    rw [allReady_concat, forall_split_concat, ih]
    refine and_congr_right fun hready => ?_
    rw [agree_iff]
    constructor
    · rintro ⟨hprovided, hagree⟩
      refine ⟨hagree, fun hcompiles hprepared hlast part => ?_⟩
      have hpart := (viewAfter_provided commands part).mp (hprovided hcompiles hprepared part)
      exact hpart.resolve_left fun h => hlast h.1
    · rintro ⟨hagree, hagain⟩
      refine ⟨fun hcompiles hprepared part => ?_, hagree⟩
      by_cases hlast : (uptoClean commands).getLast? = some .prepareTools
      · exact provided_of_stepReady hready hlast part
      · exact (viewAfter_provided commands part).mpr (.inr (hagain hcompiles hprepared hlast part))

end Record

/-- **Tools and toolchain.** In a run of all given commands that succeeds, the target and
the packages are compiled with tools and toolchain since the last `clean`, at and after
`prepare_tools`, exactly when `prepare_tools` always finds both of them prebuilt or none,
and commands provide both again where they were removed after `prepare_tools`. -/
theorem target_after_toolchain_iff {C : Type} (m : Machine C) (settings : Settings)
    (files : Files C) {final : State C} (hrun : compilePkgs m settings files = .ok final) :
    AllReady final.moments ↔
      ∀ before command after, settings.commands = before ++ command :: after →
        StepReady settings.prebuilt before command := by
  have hview := runSteps_view hrun
  have hmoments : final.moments = (viewAfter settings.prebuilt settings.commands).moments :=
    congrArg View.moments hview
  rw [hmoments, allReady_iff]

/-- Without options the target and the packages are compiled with both parts. -/
theorem plain_run_ready :
    ∃ final, compilePkgs idleMachine plainSettings (fun _ => none) = .ok final ∧
      AllReady final.moments ∧
      ∀ before command after, plainSettings.commands = before ++ command :: after →
        StepReady plainSettings.prebuilt before command := by
  obtain ⟨final, hrun⟩ : ∃ final, compilePkgs idleMachine plainSettings (fun _ => none) =
      .ok final := ⟨_, rfl⟩
  have hready : AllReady final.moments := by
    intro moment hmoment _ part
    rw [← Except.ok.inj hrun] at hmoment
    rcases List.mem_pair.mp hmoment with rfl | rfl
    · cases part <;> rfl
    · cases part <;> rfl
  exact ⟨final, hrun, hready, (target_after_toolchain_iff _ _ _ hrun).mp hready⟩

/-- With `--tools` the toolchain is neither extracted nor compiled. -/
theorem only_tools_prebuilt :
    ∃ settings final,
      parse plainSettings ["--tools".toList, "prepare_tools".toList] = .ok settings ∧
      compilePkgs idleMachine settings (fun _ => none) = .ok final ∧ ¬AllReady final.moments := by
  refine ⟨_, _, rfl, rfl, fun hready => ?_⟩
  have hmoment := hready _ List.mem_cons_self rfl .toolchain
  cases hmoment

end TurrisBuild.CompilePkgs
