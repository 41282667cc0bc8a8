import TurrisBuild.BuildDir
import TurrisBuild.Lib.Runs

/-!
# The working copy of `generate_lists`

`generate_lists` appends the feeds of a board to `feeds.conf` in place, after
copying it to `feeds.conf.bak`, and puts the copy back in `clean_and_exit`. That
function is called at the end of the script and by the traps of four signals. A
command that fails under `set -e` ends the script without it. The checkout between
cleans the directory that the script is started from, which may lie above `src_dir`.
-/

namespace TurrisBuild.GenerateLists

open FileSystem

/-- The two files in `src_dir` that the script writes, as far as they are there. -/
structure SrcDir where
  conf : Option (List Char)
  bak : Option (List Char)
  deriving DecidableEq

/-- Where a run takes place: the path of `src_dir`, the working directory, the rest of
the file system when the checkout begins, what makes a directory a repository of its
own, and what the remote of the updater lists has given. -/
structure Workplace where
  srcDir : Path
  cwd : Path
  files : Files (List Char)
  repository : Files (List Char) → Path → Bool
  remote : BuildDir.Remote (List Char)

/-- The commands of the script after the traps are installed. -/
inductive Step
  /-- `cp feeds.conf feeds.conf.bak` -/
  | backup
  /-- `cat feeds.conf.BOARD >> feeds.conf` -/
  | append
  | setProtectedBuildDir
  | getFeed
  | turrisVersion
  | gitCleanCheckout
  | patchRepository
  | configure
  | make
  | getUsign
  | sign
  | writeTurrisVersion
  | writeGitHash
  deriving DecidableEq

/-- How a run ends. The first number counts the commands that were completed. -/
inductive Ending
  /-- The script reaches its own call of `clean_and_exit`. -/
  | completes
  /-- The next command fails, before or after it wrote some characters, and
  `set -e` ends the script. Behind the last command this is the `mv` itself. -/
  | fails (completed : ℕ) (written : Option ℕ)
  /-- A trapped signal arrives before the next command starts. -/
  | stopped (completed : ℕ)
  /-- A trapped signal ends the next command after it wrote some characters. -/
  | interrupted (completed written : ℕ)
  deriving DecidableEq

/-- One run of the script. -/
structure Invocation where
  workplace : Workplace
  board : List Char
  prepare : Bool
  signed : Bool
  ending : Ending

/-- `clean_and_exit`: the backup, if there is one, replaces the file. -/
def cleanAndExit (s : SrcDir) : SrcDir :=
  match s.bak with
  | some content => ⟨some content, none⟩
  | none => s

/-- The path of `feeds.conf`. -/
def Workplace.conf (w : Workplace) : Path := w.srcDir ++ ["feeds.conf".toList]

/-- The path of `feeds.conf.bak`. -/
def Workplace.bak (w : Workplace) : Path := w.srcDir ++ ["feeds.conf.bak".toList]

/-- The file system with the two files in it. -/
def Workplace.withFiles (w : Workplace) (s : SrcDir) : Files (List Char) :=
  s.conf.toList.map (fun text => (w.conf, .file text)) ++
    s.bak.toList.map (fun text => (w.bak, .file text)) ++
    keep (fun p => p != w.conf && p != w.bak) w.files

/-- What a file system has at a path that is a file. -/
def textAt (files : Files (List Char)) (p : Path) : Option (List Char) :=
  match node files p with
  | some (.file text) => some text
  | _ => none

/-- `git_clean_checkout` in the directory that `set_protected_build_dir` has chosen. A
file that is not there is not made by it, as no revision has one of these names. -/
def Workplace.checkout (w : Workplace) (s : SrcDir) : SrcDir :=
  let files := BuildDir.startCheckout w.repository .generateLists w.remote w.srcDir w.cwd
    (w.withFiles s)
  ⟨s.conf.bind fun _ => textAt files w.conf, s.bak.bind fun _ => textAt files w.bak⟩

/-- The commands after the one that appends the board's file. -/
def laterSteps (inv : Invocation) : List Step :=
  [.setProtectedBuildDir, .getFeed, .turrisVersion, .gitCleanCheckout, .patchRepository,
    .configure] ++
  if inv.prepare then []
  else .make :: ((if inv.signed then [.getUsign, .sign] else []) ++
    [.writeTurrisVersion, .writeGitHash])

section Run

variable (boardConfs : List Char → Option (List Char))

/-- The file `feeds.conf.BOARD`. Nothing stops a caller from naming the board
`bak`, whose file is the backup. -/
def boardFile (board : List Char) (s : SrcDir) : Option (List Char) :=
  if board = ['b', 'a', 'k'] then s.bak else boardConfs board

/-- What a completed command does to the two files. -/
def Step.run (inv : Invocation) (s : SrcDir) : Step → SrcDir
  | .backup => { s with bak := s.conf.or s.bak }
  | .append =>
    { s with conf := some (s.conf.getD [] ++ (boardFile boardConfs inv.board s).getD []) }
  | .gitCleanCheckout => inv.workplace.checkout s
  | _ => s

/-- What a command does that is ended after it wrote some characters. A checkout may
have cleaned by then. -/
def Step.cut (inv : Invocation) (written : ℕ) (s : SrcDir) : Step → SrcDir
  | .backup => { s with bak := (s.conf.map (·.take written)).or s.bak }
  | .append => { s with
      conf := some (s.conf.getD [] ++ ((boardFile boardConfs inv.board s).getD []).take written) }
  | .gitCleanCheckout => if written = 0 then s else inv.workplace.checkout s
  | _ => s

/-- The commands of a run up to the final `clean_and_exit`. -/
def steps (s : SrcDir) (inv : Invocation) : List Step :=
  match boardFile boardConfs inv.board s with
  | some _ => .backup :: .append :: laterSteps inv
  | none => laterSteps inv

/-- The files after the first commands of a run. -/
def after (inv : Invocation) (completed : ℕ) (s : SrcDir) : SrcDir :=
  ((steps boardConfs s inv).take completed).foldl (Step.run boardConfs inv) s

/-- The files after the first commands of a run and a part of the next one. -/
def during (inv : Invocation) (completed written : ℕ) (s : SrcDir) : SrcDir :=
  match (steps boardConfs s inv)[completed]? with
  | some step => step.cut boardConfs inv written (after boardConfs inv completed s)
  | none => after boardConfs inv completed s

/-- The files after a run. -/
def run (s : SrcDir) (inv : Invocation) : SrcDir :=
  match inv.ending with
  | .completes => cleanAndExit (after boardConfs inv (steps boardConfs s inv).length s)
  | .fails n none => after boardConfs inv n s
  | .fails n (some written) => during boardConfs inv n written s
  | .stopped n => cleanAndExit (after boardConfs inv n s)
  | .interrupted n written => cleanAndExit (during boardConfs inv n written s)

/-- The text that a run appends: the board's file once the backup is made. -/
def appended (s : SrcDir) (inv : Invocation) : List Char :=
  (boardFile boardConfs inv.board { s with bak := s.conf }).getD []

/-- No backup of another text is lying around. -/
def SrcDir.Restorable (s : SrcDir) : Prop := s.bak = none ∨ s.bak = s.conf

/-- The run does not end in one of the ways that lose the original file: a
command fails behind appended text, a signal ends the copying of the backup
before it is complete, or a backup of another text is put back. -/
def Invocation.Spares (s : SrcDir) (inv : Invocation) : Prop :=
  match boardFile boardConfs inv.board s, inv.ending with
  | none, .fails _ _ => True
  | none, _ => s.Restorable
  | some _, .fails 0 _ => True
  | some _, .fails 1 written => (appended boardConfs s inv).take (written.getD 0) = []
  | some _, .fails _ _ => appended boardConfs s inv = []
  | some _, .stopped 0 => s.Restorable
  | some _, .interrupted 0 written => s.conf.map (·.take written) = s.conf
  | some _, _ => True

/-- The run does not clean the sources: it is started in `src_dir`, whose directory for
the lists leads to no directory that holds any of them, or in a directory that holds
none, whatever is in the two files. -/
def Invocation.WorksOutside (inv : Invocation) : Prop :=
  ∀ s : SrcDir, BuildDir.WorksOutside .generateLists inv.workplace.srcDir inv.workplace.cwd
    (inv.workplace.withFiles s)

end Run

variable {boardConfs : List Char → Option (List Char)}

/-! ### The checkout -/

private theorem conf_ne_bak (w : Workplace) : w.conf ≠ w.bak := by
  intro heq
  exact absurd (List.append_cancel_left heq) (by decide)

private theorem node_conf (w : Workplace) (s : SrcDir) {text : List Char}
    (hconf : s.conf = some text) : node (w.withFiles s) w.conf = some (.file text) := by
  simp [Workplace.withFiles, node, hconf]

private theorem node_bak (w : Workplace) (s : SrcDir) {text : List Char}
    (hbak : s.bak = some text) : node (w.withFiles s) w.bak = some (.file text) := by
  have hne : (w.bak == w.conf) = false := by simpa using (conf_ne_bak w).symm
  cases hconf : s.conf <;> simp [Workplace.withFiles, node, hbak, hconf, List.lookup_cons, hne]

/-- A checkout outside of the sources leaves the two files alone. -/
theorem Invocation.WorksOutside.checkout {inv : Invocation} (h : inv.WorksOutside) (s : SrcDir) :
    inv.workplace.checkout s = s := by
  have hkept := (BuildDir.sources_kept_iff inv.workplace.repository .generateLists
    inv.workplace.srcDir inv.workplace.cwd (inv.workplace.withFiles s)).mpr (h s)
    inv.workplace.remote
  have hsource {p : Path} {name : Name} {text : List Char} (hp : p = inv.workplace.srcDir ++ [name])
      (hname : ¬BuildDir.Script.generateLists.alt <+: name)
      (hnode : node (inv.workplace.withFiles s) p = some (.file text)) :
      textAt (BuildDir.startCheckout inv.workplace.repository .generateLists inv.workplace.remote
        inv.workplace.srcDir inv.workplace.cwd (inv.workplace.withFiles s)) p = some text := by
    have hoff : ¬inv.workplace.srcDir ++ [BuildDir.Script.generateLists.alt] <+: p := by
      rw [hp, List.prefix_append_right_inj]
      intro hprefix
      obtain ⟨rfl, -⟩ : BuildDir.Script.generateLists.alt = name ∧ _ :=
        List.cons_prefix_cons.mp hprefix
      exact hname (List.prefix_refl _)
    have hnode' := hkept p (.file text) ⟨hnode, by simp, hp ▸ List.prefix_append _ _, hoff⟩
    simp [textAt, hnode']
  obtain ⟨conf, bak⟩ := s
  cases conf with
  | none =>
    cases bak with
    | none => rfl
    | some text' =>
      have htext' := hsource rfl (by decide) (node_bak inv.workplace _ rfl)
      simp only [Workplace.checkout, Option.bind_none, Option.bind_some, SrcDir.mk.injEq, true_and]
      exact htext'
  | some text =>
    have htext := hsource rfl (by decide) (node_conf inv.workplace _ rfl)
    cases bak with
    | none =>
      simp only [Workplace.checkout, Option.bind_none, Option.bind_some, SrcDir.mk.injEq, and_true]
      exact htext
    | some text' =>
      have htext' := hsource rfl (by decide) (node_bak inv.workplace _ rfl)
      simp only [Workplace.checkout, Option.bind_some, SrcDir.mk.injEq]
      exact ⟨htext, htext'⟩

/-! ### The effect of a run -/

section Effect

variable {inv : Invocation} {conf : List Char} {bak : Option (List Char)} {s : SrcDir}

private theorem laterSteps_ne {step : Step} (hstep : step ∈ laterSteps inv) :
    step ≠ .backup ∧ step ≠ .append := by
  unfold laterSteps at hstep
  split at hstep
  · revert step
    decide
  · split at hstep
    · revert step
      decide
    · revert step
      decide

private theorem run_of_later (houtside : inv.WorksOutside) {step : Step}
    (hstep : step ∈ laterSteps inv) (s : SrcDir) : step.run boardConfs inv s = s := by
  have hne := laterSteps_ne hstep
  cases step with
  | backup => exact absurd rfl hne.1
  | append => exact absurd rfl hne.2
  | gitCleanCheckout => exact houtside.checkout s
  | _ => rfl

private theorem cut_of_later (houtside : inv.WorksOutside) {step : Step}
    (hstep : step ∈ laterSteps inv) (written : ℕ) (s : SrcDir) :
    step.cut boardConfs inv written s = s := by
  have hne := laterSteps_ne hstep
  cases step with
  | backup => exact absurd rfl hne.1
  | append => exact absurd rfl hne.2
  | gitCleanCheckout => simp [Step.cut, houtside.checkout s]
  | _ => rfl

private theorem foldl_run_of_later (houtside : inv.WorksOutside) {steps : List Step}
    (hsteps : ∀ step ∈ steps, step ∈ laterSteps inv) (s : SrcDir) :
    steps.foldl (Step.run boardConfs inv) s = s := by
  induction steps with
  | nil => rfl
  | cons step steps ih =>
    rw [List.foldl_cons, run_of_later houtside (hsteps step List.mem_cons_self)]
    exact ih fun t ht => hsteps t (List.mem_cons_of_mem _ ht)

/-- Without a file of the board no command touches the two files. -/
theorem after_of_none (houtside : inv.WorksOutside)
    (hboard : boardFile boardConfs inv.board s = none) (n : ℕ) :
    after boardConfs inv n s = s := by
  refine foldl_run_of_later houtside (fun step hstep => ?_) s
  simp only [steps, hboard] at hstep
  exact List.mem_of_mem_take hstep

/-- With a file of the board the first command makes the backup, the second one
appends, and the others leave both files alone. -/
theorem after_of_some (houtside : inv.WorksOutside) {text : List Char}
    (hboard : boardFile boardConfs inv.board ⟨some conf, bak⟩ = some text) (n : ℕ) :
    after boardConfs inv n ⟨some conf, bak⟩ =
      match n with
      | 0 => ⟨some conf, bak⟩
      | 1 => ⟨some conf, some conf⟩
      | _ + 2 => ⟨some (conf ++ appended boardConfs ⟨some conf, bak⟩ inv), some conf⟩ := by
  match n with
  | 0 => rfl
  | 1 => simp [after, steps, hboard, Step.run]
  | n + 2 =>
    have hlater : ∀ step ∈ (laterSteps inv).take n, step ∈ laterSteps inv :=
      fun step hstep => List.mem_of_mem_take hstep
    simp [after, steps, hboard, Step.run, appended, foldl_run_of_later houtside hlater]

/-- A command ended half-way touches the files only if it is one of the first two. -/
theorem during_of_none (houtside : inv.WorksOutside)
    (hboard : boardFile boardConfs inv.board s = none) (n written : ℕ) :
    during boardConfs inv n written s = s := by
  cases hstep : (steps boardConfs s inv)[n]? with
  | none => simp [during, hstep, after_of_none houtside hboard]
  | some step =>
    have hlater : step ∈ laterSteps inv := by
      simp only [steps, hboard] at hstep
      exact List.mem_of_getElem? hstep
    simp [during, hstep, after_of_none houtside hboard, cut_of_later houtside hlater]

/-- The backup or the appended text is cut; the other commands have no effect. -/
theorem during_of_some (houtside : inv.WorksOutside) {text : List Char}
    (hboard : boardFile boardConfs inv.board ⟨some conf, bak⟩ = some text) (n written : ℕ) :
    during boardConfs inv n written ⟨some conf, bak⟩ =
      match n with
      | 0 => ⟨some conf, some (conf.take written)⟩
      | 1 => ⟨some (conf ++ (appended boardConfs ⟨some conf, bak⟩ inv).take written), some conf⟩
      | _ + 2 => ⟨some (conf ++ appended boardConfs ⟨some conf, bak⟩ inv), some conf⟩ := by
  have hafter (n : ℕ) := after_of_some houtside hboard n
  match n with
  | 0 => simp [during, hafter, steps, hboard, Step.cut]
  | 1 => simp [during, hafter, steps, hboard, Step.cut, appended]
  | n + 2 =>
    cases hstep : (steps boardConfs ⟨some conf, bak⟩ inv)[n + 2]? with
    | none => simp [during, hstep, hafter]
    | some step =>
      have hlater : step ∈ laterSteps inv := by
        simp only [steps, hboard, List.getElem?_cons_succ] at hstep
        exact List.mem_of_getElem? hstep
      simp [during, hstep, hafter, cut_of_later houtside hlater]

private theorem cleanAndExit_conf_iff (s : SrcDir) :
    (cleanAndExit s).conf = s.conf ↔ s.Restorable := by
  obtain ⟨conf, bak⟩ := s
  cases bak <;> simp [cleanAndExit, SrcDir.Restorable, eq_comm]

/-- **One run.** Outside of the sources the file is the same before and after a run
exactly when the run spares it. -/
theorem run_conf_iff (houtside : inv.WorksOutside) :
    (run boardConfs ⟨some conf, bak⟩ inv).conf = some conf ↔
      inv.Spares boardConfs ⟨some conf, bak⟩ := by
  have hrestorable (bak : Option (List Char)) := cleanAndExit_conf_iff ⟨some conf, bak⟩
  cases hboard : boardFile boardConfs inv.board ⟨some conf, bak⟩ with
  | none =>
    have hafter (n : ℕ) := after_of_none houtside hboard n
    have hduring (n written : ℕ) := during_of_none houtside hboard n written
    cases hending : inv.ending with
    | completes => simp [run, Invocation.Spares, hboard, hending, hafter, hrestorable]
    | fails n written =>
      cases written <;> simp [run, Invocation.Spares, hboard, hending, hafter, hduring]
    | stopped n => simp [run, Invocation.Spares, hboard, hending, hafter, hrestorable]
    | interrupted n written =>
      simp [run, Invocation.Spares, hboard, hending, hduring, hrestorable]
  | some text =>
    have hafter (n : ℕ) := after_of_some houtside hboard n
    have hduring (n written : ℕ) := during_of_some houtside hboard n written
    cases hending : inv.ending with
    | completes =>
      have hlen : (steps boardConfs ⟨some conf, bak⟩ inv).length =
          (laterSteps inv).length + 2 := by
        simp [steps, hboard]
      simp [run, Invocation.Spares, hboard, hending, hafter, hlen, cleanAndExit]
    | fails n written =>
      rcases n with _ | _ | n <;> cases written <;>
        simp [run, Invocation.Spares, hboard, hending, hafter, hduring]
    | stopped n =>
      rcases n with _ | _ | n
      · simp [run, Invocation.Spares, hboard, hending, hafter, hrestorable]
      · simp [run, Invocation.Spares, hboard, hending, hafter, cleanAndExit]
      · simp [run, Invocation.Spares, hboard, hending, hafter, cleanAndExit]
    | interrupted n written =>
      rcases n with _ | _ | n <;>
        simp [run, Invocation.Spares, hboard, hending, hduring, cleanAndExit]

end Effect

/-- **The file survives.** Along every sequence of runs that do not clean the sources,
whatever backup is there at first, `feeds.conf` is after each run what it was before
the first one exactly when every run spares it. -/
theorem runs_preserve_conf_iff (boardConfs : List Char → Option (List Char))
    (original : List Char) (bak : Option (List Char)) {invs : List Invocation}
    (houtside : ∀ inv ∈ invs, inv.WorksOutside) :
    (∀ t ∈ Runs.states (run boardConfs) ⟨some original, bak⟩ invs, t.conf = some original) ↔
      Runs.Along (run boardConfs) (Invocation.Spares boardConfs) ⟨some original, bak⟩ invs := by
  refine @Runs.forall_states_iff_along _ _ _ (fun t : SrcDir => t.conf = some original)
    (fun _ inv => inv.WorksOutside) _ ?_ _ _ rfl (Runs.along_of_forall_mem houtside)
  rintro ⟨conf, bak⟩ inv hconf hinv
  obtain rfl : conf = some original := hconf
  exact run_conf_iff hinv

/-- The feeds of every board and the file of the one board that has its own. -/
def luciConf : List Char :=
  "src-git-full luci https://openwrt.turris.cz/project/luci.git\n".toList

@[inherit_doc luciConf]
def videoConf : List Char → Option (List Char)
  | ['o', 'm', 'n', 'i', 'a', '-', 'n', 'g'] =>
    some "src-git-full video https://openwrt.turris.cz/feed/video.git;openwrt-24.10\n".toList
  | _ => none

/-- Runs are started in a directory next to the sources. -/
def nextToSources : Workplace where
  srcDir := ["src".toList]
  cwd := ["work".toList]
  files := [([], .dir), (["src".toList], .dir), (["work".toList], .dir)]
  repository _ _ := false
  remote := ⟨[], none⟩

/-- A run there for the board that has its own file. -/
def videoRun (ending : Ending) : Invocation :=
  ⟨nextToSources, "omnia-ng".toList, false, false, ending⟩

private theorem videoRun_worksOutside (ending : Ending) : (videoRun ending).WorksOutside := by
  intro s here hhere
  have hwork : directory (nextToSources.withFiles s) ["work".toList] = some ["work".toList] := by
    obtain ⟨_ | conf, _ | bak⟩ := s <;> rfl
  obtain rfl : ["work".toList] = here := Option.some.inj (hwork.symm.trans hhere)
  refine ⟨fun _ p n hsource hprefix => ?_, fun heq => ?_⟩
  · obtain ⟨q, rfl⟩ := hprefix
    obtain ⟨r, hr⟩ := hsource.2.2.1
    exact absurd (List.cons.inj hr).1 (by decide)
  · have hsrc : ["work".toList] = ["src".toList] := heq
    exact absurd hsrc (by decide)

/-- Runs that complete keep the file. -/
theorem completed_runs_keep_conf :
    (videoRun .completes).WorksOutside ∧
      ∀ t ∈ Runs.states (run videoConf) ⟨some luciConf, none⟩
        [videoRun .completes, videoRun .completes], t.conf = some luciConf := by
  have houtside := videoRun_worksOutside .completes
  refine ⟨houtside, (runs_preserve_conf_iff videoConf luciConf none ?_).mpr ⟨?_, ?_, trivial⟩⟩
  · simpa using houtside
  · exact trivial
  · exact trivial

/-- A run for such a board whose `make` fails, and a later run that completes:
the first leaves the video feed in the file and the second backs it up there. -/
theorem failed_make_keeps_board_feed :
    ¬ ∀ t ∈ Runs.states (run videoConf) ⟨some luciConf, none⟩
      [videoRun (.fails 8 none), videoRun .completes], t.conf = some luciConf := by
  decide +kernel

end TurrisBuild.GenerateLists
