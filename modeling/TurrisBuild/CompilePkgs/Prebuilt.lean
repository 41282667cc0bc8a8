import TurrisBuild.CompilePkgs.Steps
import TurrisBuild.Lib.Outcome

/-!
# Prebuilt archives

`prebuilt_tools` and `prebuilt_toolchain` delete their own directory first. An archive
that they have downloaded lies in it, and the variable that remembers its path keeps it
from being downloaded again.
-/

namespace TurrisBuild.CompilePkgs

open Outcome

variable {C : Type}

/-- The extractions of a part. -/
def extractionsOf (part : Part) (s : State C) : List (Extraction C) :=
  s.extractions.filter (·.part = part)

/-- If the first execution has found its archive, all later ones find an archive with the
same content. -/
def Repeatable (part : Part) (s : State C) : Prop :=
  ∀ first rest archive, extractionsOf part s = first :: rest → first.found = some archive →
    ∀ later ∈ rest, later.found = some archive

/-- The archive was given by its path, and whenever the function is called again, the
steps in between have left it as it was. -/
def LeftAlone (settings : Settings) (part : Part) (s : State C) : Prop :=
  ∀ first rest archive, extractionsOf part s = first :: rest → first.found = some archive →
    ∀ later ∈ rest, settings.tar part ≠ [] ∧ later.entry = some archive

/-- The path that is given for a part. -/
def givenTar (m : Machine C) (settings : Settings) (part : Part) : Option Path :=
  if settings.tar part = [] then none else some (m.realpath (settings.tar part))

/-- The variable and the record of a part. With a given path, an extraction finds what was
there before, unless it is in the directory of the part. Without one, only the first
extraction finds something. -/
inductive Remembers (m : Machine C) (settings : Settings) (part : Part) (s : State C) : Prop
  | never (hnone : extractionsOf part s = []) (htar : s.tar part = givenTar m settings part)
  | given {path : Path} (hgiven : givenTar m settings part = some path)
      (htar : s.tar part = some path)
      (hfound : ∀ e ∈ extractionsOf part s,
        e.found = if m.partDir part <+: path then none else e.entry)
  | downloaded {path : Path} (hgiven : givenTar m settings part = none)
      (htar : s.tar part = some path) (hpath : m.partDir part <+: path) (e : Extraction C)
      {rest : List (Extraction C)} (hrecord : extractionsOf part s = e :: rest)
      (hrest : ∀ later ∈ rest, later.found = none)

section Steps

variable {m : Machine C} {settings : Settings} {part : Part}

/-- Only the variable and the record matter. -/
private theorem Remembers.congr {s s' : State C} (hs : Remembers m settings part s)
    (htar : s'.tar part = s.tar part) (hrecord : extractionsOf part s' = extractionsOf part s) :
    Remembers m settings part s' := by
  cases hs with
  | never hnone htar' => exact .never (hrecord.trans hnone) (htar.trans htar')
  | given hgiven htar' hfound => exact .given hgiven (htar.trans htar') (by rwa [hrecord])
  | downloaded hgiven htar' hpath e hrecord' hrest =>
    exact .downloaded hgiven (htar.trans htar') hpath e (hrecord.trans hrecord') hrest

private theorem preserves_perform (effect : Files C → Option (Files C)) :
    Preserves (Remembers m settings part) (perform effect) := by
  intro s hs
  unfold perform
  split
  · exact hs.congr rfl rfl
  · exact hs

/-- An extraction is recorded, whether it succeeds or not. -/
private theorem final_extractTar {s : State C} {path : Path} (entry : Option C)
    (htar : s.tar part = some path) :
    (final (extractTar m part entry s)).tar = s.tar ∧
      (final (extractTar m part entry s)).extractions =
        s.extractions ++ [⟨part, path, entry, s.files path⟩] := by
  unfold extractTar
  rw [htar]
  simp only
  cases s.files path with
  | none => exact ⟨rfl, rfl⟩
  | some archive =>
    simp only [perform]
    cases m.extract part archive s.files with
    | none => exact ⟨rfl, rfl⟩
    | some files => exact ⟨rfl, rfl⟩

variable (m settings part) in
/-- The archive that is remembered is extracted, or else one that is downloaded. -/
private theorem final_fetch_extract (board : Board) (entry : Option C) (t : State C) :
    let u := final (fetchTar m settings part board t >>= extractTar m part entry)
    (t.tar part = none ∧ u.tar = t.tar ∧ u.extractions = t.extractions) ∨
      (∃ path, t.tar part = some path ∧ u.tar = t.tar ∧
        u.extractions = t.extractions ++ [⟨part, path, entry, t.files path⟩]) ∨
      ∃ path archive, t.tar part = none ∧ m.partDir part <+: path ∧
        u.tar = Function.update t.tar part (some path) ∧
        u.extractions = t.extractions ++ [⟨part, path, entry, some archive⟩] := by
  cases htar : t.tar part with
  | some path =>
    have hfetch : fetchTar m settings part board t = .ok t := by rw [fetchTar, htar]
    rw [hfetch]
    exact .inr (.inl ⟨path, rfl, final_extractTar entry htar⟩)
  | none =>
    cases hwget : m.wget (dlUrl settings part board) with
    | none =>
      have hfetch : fetchTar m settings part board t = .error t := by rw [fetchTar, htar, hwget]
      rw [hfetch]
      exact .inl ⟨rfl, rfl, rfl⟩
    | some archive =>
      let path := m.partDir part ++ [dlName part board]
      let u : State C := { t with
        files := Function.update t.files path (some archive)
        tar := Function.update t.tar part (some path) }
      have hfetch : fetchTar m settings part board t = .ok u := by rw [fetchTar, htar, hwget]
      have hu : u.tar part = some path := Function.update_self _ _ _
      have hfile : u.files path = some archive := Function.update_self _ _ _
      obtain ⟨htar', hrecord⟩ := final_extractTar (m := m) entry hu
      rw [hfile] at hrecord
      rw [hfetch]
      exact .inr (.inr ⟨path, archive, rfl, List.prefix_append _ _, htar', hrecord⟩)

variable (m settings part) in
/-- What `prebuilt_tools` and `prebuilt_toolchain` do to the variable and the record: nothing,
if they fail too early, or they extract the archive that is remembered, after the directory
is gone, or one that is downloaded. -/
private theorem final_prebuiltPart (s : State C) :
    let t := final (prebuiltPart m settings part s)
    (t.tar = s.tar ∧ t.extractions = s.extractions) ∨
      (∃ path, s.tar part = some path ∧ t.tar = s.tar ∧ t.extractions = s.extractions ++
        [⟨part, path, s.files path, if m.partDir part <+: path then none else s.files path⟩]) ∨
      ∃ path archive, s.tar part = none ∧ m.partDir part <+: path ∧
        t.tar = Function.update s.tar part (some path) ∧
        t.extractions = s.extractions ++ [⟨part, path, none, some archive⟩] := by
  simp only [prebuiltPart]
  cases settings.targetBoard with
  | none => exact .inl ⟨rfl, rfl⟩
  | some board =>
    simp only
    split
    · exact .inl ⟨rfl, rfl⟩
    · rcases final_fetch_extract m settings part board
        ((s.tar part).bind s.files) { s with
          prebuilt := Function.update s.prebuilt part true
          files := removeTree (m.partDir part) s.files } with
        ⟨-, htar, hrecord⟩ | ⟨path, hpath, htar, hrecord⟩ |
          ⟨path, archive, hnone, hdir, htar, hrecord⟩
      · exact .inl ⟨htar, hrecord⟩
      · have hentry : (s.tar part).bind s.files = s.files path := by
          rw [show s.tar part = some path from hpath, Option.bind_some]
        rw [hentry] at htar hrecord ⊢
        exact .inr (.inl ⟨path, hpath, htar, hrecord⟩)
      · have hentry : (s.tar part).bind s.files = none := by
          rw [show s.tar part = none from hnone, Option.bind_none]
        rw [hentry] at htar hrecord ⊢
        exact .inr (.inr ⟨path, archive, hnone, hdir, htar, hrecord⟩)

/-- The functions for the other part leave the variable and the record of this one. -/
private theorem preserves_prebuiltPart (other : Part) :
    Preserves (Remembers m settings part) (prebuiltPart m settings other) := by
  intro s hs
  have hcases := final_prebuiltPart m settings other s
  simp only at hcases
  generalize final (prebuiltPart m settings other s) = t at hcases ⊢
  by_cases hother : other = part
  · subst hother
    have hrecord (e : Extraction C) (he : e.part = other)
        (ht : t.extractions = s.extractions ++ [e]) :
        extractionsOf other t = extractionsOf other s ++ [e] := by
      simp [extractionsOf, ht, he]
    rcases hcases with ⟨htar, hsame⟩ | ⟨path, hpath, htar, hnew⟩ |
      ⟨path, archive, hnone, hdir, htar, hnew⟩
    · exact hs.congr (by rw [htar]) (by rw [extractionsOf, hsame]; rfl)
    · have hrec := hrecord _ rfl hnew
      have htar' : t.tar other = some path := by rw [htar, hpath]
      cases hs with
      | never hnone hgiven =>
        refine .given (hgiven.symm.trans hpath) htar' fun e he => ?_
        rw [hrec, hnone] at he
        rw [List.mem_singleton.mp he]
      | @given path' hgiven htar'' hfound =>
        obtain rfl : path' = path := Option.some.inj (htar''.symm.trans hpath)
        refine .given hgiven htar' fun e he => ?_
        rw [hrec] at he
        rcases List.mem_append.mp he with he | he
        · exact hfound e he
        · rw [List.mem_singleton.mp he]
      | @downloaded path' hgiven htar'' hdir first rest hrecord' hrest =>
        obtain rfl : path' = path := Option.some.inj (htar''.symm.trans hpath)
        refine .downloaded hgiven htar' hdir first (hrec.trans (by rw [hrecord']; rfl)) ?_
        intro later hlater
        rcases List.mem_append.mp hlater with hlater | hlater
        · exact hrest later hlater
        · rw [List.mem_singleton.mp hlater]
          exact if_pos hdir
    · have hrec := hrecord _ rfl hnew
      have htar' : t.tar other = some path := by rw [htar, Function.update_self]
      cases hs with
      | never hnever hgiven =>
        exact .downloaded (hgiven.symm.trans hnone) htar' hdir ⟨other, path, none, some archive⟩
          (hrec.trans (by rw [hnever]; rfl)) (fun _ h => absurd h List.not_mem_nil)
      | given hgiven htar'' hfound =>
        rw [hnone] at htar''
        cases htar''
      | downloaded hgiven htar'' hdir first hrecord' hrest =>
        rw [hnone] at htar''
        cases htar''
  · have hrecord (e : Extraction C) (he : e.part = other)
        (ht : t.extractions = s.extractions ++ [e]) :
        extractionsOf part t = extractionsOf part s := by
      simp [extractionsOf, ht, he, hother]
    rcases hcases with ⟨htar, hsame⟩ | ⟨path, hpath, htar, hnew⟩ |
      ⟨path, archive, hnone, hdir, htar, hnew⟩
    · exact hs.congr (by rw [htar]) (by rw [extractionsOf, hsame]; rfl)
    · exact hs.congr (by rw [htar]) (hrecord _ rfl hnew)
    · exact hs.congr (by rw [htar, Function.update_of_ne (Ne.symm hother)]) (hrecord _ rfl hnew)

private theorem keeps_remembers : Keeps m settings (Remembers m settings part) where
  record _ _ _ _ hs := hs.congr rfl rfl
  make _ := preserves_perform _
  other _ := preserves_perform _
  clean _ hs := hs.congr rfl rfl
  prebuiltPart := preserves_prebuiltPart

/-- With the variable and the record as they are, later executions find the archive exactly
when it was given and left alone. -/
private theorem Remembers.repeatable_iff {s : State C} (hs : Remembers m settings part s) :
    Repeatable part s ↔ LeftAlone settings part s := by
  refine forall_congr' fun first => forall_congr' fun rest => forall_congr' fun archive => ?_
  refine imp_congr_right fun hrecord => imp_congr_right fun hfirst => ?_
  cases hs with
  | never hnone htar =>
    rw [hnone] at hrecord
    cases hrecord
  | @given path hgiven htar hfound =>
    have hset : settings.tar part ≠ [] := by
      intro hempty
      rw [givenTar, if_pos hempty] at hgiven
      cases hgiven
    -- The first extraction shows that the archive is not in the directory of the part.
    have hdir : ¬m.partDir part <+: path := by
      intro hdir
      have hnone := hfound first (by rw [hrecord]; exact List.mem_cons_self)
      rw [if_pos hdir, hfirst] at hnone
      cases hnone
    refine forall_congr' fun later => imp_congr_right fun hlater => ?_
    have hsame := hfound later (by rw [hrecord]; exact List.mem_cons_of_mem _ hlater)
    rw [hsame, if_neg hdir, and_iff_right hset]
  | downloaded hgiven htar hdir e hrecord' hrest =>
    have hempty : settings.tar part = [] := by
      by_contra hset
      rw [givenTar, if_neg hset] at hgiven
      cases hgiven
    rw [hrecord'] at hrecord
    obtain ⟨rfl, rfl⟩ := List.cons.inj hrecord
    refine forall_congr' fun later => imp_congr_right fun hlater => ?_
    rw [hrest later hlater]
    exact iff_of_false (fun h => by cases h) (fun h => h.1 hempty)

end Steps

/-- **Repeated extraction.** Where a run of the script ends, every later execution of the
function for a prebuilt part has found an archive with the content of the first one,
exactly when the archive was given by its path and the steps between the executions have
left it as it was. -/
theorem prebuilt_repeatable_iff (m : Machine C) (settings : Settings) (files : Files C)
    (part : Part) :
    Repeatable part (final (compilePkgs m settings files)) ↔
      LeftAlone settings part (final (compilePkgs m settings files)) := by
  have hfinal : Remembers m settings part (final (compilePkgs m settings files)) :=
    keeps_remembers.compilePkgs (.never rfl rfl)
  exact hfinal.repeatable_iff

/-- The tools are downloaded and found the first time, and not the second time. -/
theorem downloaded_tools_not_found_again :
    ∃ settings, parse plainSettings ["prebuilt_tools".toList, "prebuilt_tools".toList] =
        .ok settings ∧
      (extractionsOf .tools (final (compilePkgs idleMachine settings fun _ => none))).map
        Extraction.found = [some (), none] ∧
      ¬Repeatable .tools (final (compilePkgs idleMachine settings fun _ => none)) := by
  refine ⟨_, rfl, rfl, fun hrepeatable => ?_⟩
  have hlater := hrepeatable _ _ () rfl rfl _ List.mem_cons_self
  cases hlater

/-! ### Archives that nothing touches -/

/-- The programs leave the file alone, and it is in no directory that the script deletes. -/
structure Machine.LeavesAlone (m : Machine C) (path : Path) : Prop where
  make : ∀ product files files', m.make product files = some files' → files' path = files path
  other : ∀ command files files', m.other command files = some files' → files' path = files path
  extract : ∀ part archive files files', m.extract part archive files = some files' →
    files' path = files path
  clean : ∀ dir ∈ cleanDirs, ¬m.buildDir ++ [dir] <+: path
  parts : ∀ part, ¬m.partDir part <+: path

section LeavesAlone

variable {m : Machine C} {settings : Settings} {path : Path} {content : Option C}

private theorem preserves_file_perform {effect : Files C → Option (Files C)}
    (heffect : ∀ files files', effect files = some files' → files' path = files path) :
    Preserves (fun s : State C => s.files path = content) (perform effect) := by
  intro s hs
  unfold perform
  split
  next files hfiles => exact (heffect _ _ hfiles).trans hs
  next => exact hs

private theorem foldl_removeTree {dirs : List Word}
    (hdirs : ∀ dir ∈ dirs, ¬m.buildDir ++ [dir] <+: path) (files : Files C) :
    dirs.foldl (fun files dir => removeTree (m.buildDir ++ [dir]) files) files path =
      files path := by
  induction dirs generalizing files with
  | nil => rfl
  | cons dir dirs ih =>
    obtain ⟨hdir, hdirs⟩ := List.forall_mem_cons.mp hdirs
    rw [List.foldl_cons, ih hdirs]
    exact if_neg hdir

private theorem preserves_file_fetchTar (halone : m.LeavesAlone path) (part : Part)
    (board : Board) :
    Preserves (fun s : State C => s.files path = content) (fetchTar m settings part board) := by
  intro s hs
  unfold fetchTar
  split
  · exact hs
  · split
    · exact hs
    · have hne : path ≠ m.partDir part ++ [dlName part board] := by
        rintro rfl
        exact halone.parts part (List.prefix_append _ _)
      exact (Function.update_of_ne hne _ _).trans hs

private theorem preserves_file_extractTar (halone : m.LeavesAlone path) (part : Part)
    (entry : Option C) :
    Preserves (fun s : State C => s.files path = content) (extractTar m part entry) := by
  intro s hs
  unfold extractTar
  split
  · exact hs
  · simp only
    split
    · exact hs
    next archive _ =>
      refine ((preserves_file_perform (halone.extract part archive)).bind ?_) _ hs
      intro t ht
      exact ht

private theorem preserves_file_prebuiltPart (halone : m.LeavesAlone path) (part : Part) :
    Preserves (fun s : State C => s.files path = content) (prebuiltPart m settings part) := by
  intro s hs
  simp only [prebuiltPart]
  split
  · exact hs
  · split
    · exact hs
    · refine ((preserves_file_fetchTar halone part _).bind
        (preserves_file_extractTar halone part _)) _ ?_
      exact (if_neg (halone.parts part)).trans hs

/-- What is remembered of an archive that nothing touches. -/
private structure Untouched (part : Part) (path : Path) (content : Option C) (s : State C) :
    Prop where
  file : s.files path = content
  tar : s.tar part = some path
  entry : ∀ e ∈ extractionsOf part s, e.entry = content

private theorem preserves_untouched {part : Part} {f : Step C}
    (hfile : Preserves (fun s : State C => s.files path = content) f)
    (hsame : ∀ s, (final (f s)).tar = s.tar ∧ (final (f s)).extractions = s.extractions) :
    Preserves (Untouched part path content) f := by
  intro s hs
  obtain ⟨htar, hrecord⟩ := hsame s
  refine ⟨hfile s hs.file, by rw [htar, hs.tar], ?_⟩
  rw [extractionsOf, hrecord]
  exact hs.entry

private theorem final_perform (effect : Files C → Option (Files C)) (s : State C) :
    (final (perform effect s)).tar = s.tar ∧
      (final (perform effect s)).extractions = s.extractions := by
  unfold perform
  split
  · exact ⟨rfl, rfl⟩
  · exact ⟨rfl, rfl⟩

private theorem keeps_untouched (halone : m.LeavesAlone path) (part : Part) :
    Keeps m settings (Untouched part path content) where
  record _ _ _ _ hs := ⟨hs.file, hs.tar, hs.entry⟩
  make product := preserves_untouched (preserves_file_perform (halone.make product))
    (final_perform _)
  other command := preserves_untouched (preserves_file_perform (halone.other command))
    (final_perform _)
  clean s hs := ⟨(foldl_removeTree halone.clean s.files).trans hs.file, hs.tar, hs.entry⟩
  prebuiltPart other s hs := by
    have hfile : (final (prebuiltPart m settings other s)).files path = content :=
      preserves_file_prebuiltPart halone other s hs.file
    have hcases := final_prebuiltPart m settings other s
    simp only at hcases
    generalize final (prebuiltPart m settings other s) = t at hcases hfile ⊢
    rcases hcases with ⟨htar, hrecord⟩ | ⟨p, hp, htar, hrecord⟩ |
      ⟨p, archive, hnone, -, htar, hrecord⟩
    · refine ⟨hfile, by rw [htar, hs.tar], ?_⟩
      rw [extractionsOf, hrecord]
      exact hs.entry
    · refine ⟨hfile, by rw [htar, hs.tar], ?_⟩
      intro e he
      rw [extractionsOf, hrecord, List.filter_append, List.mem_append] at he
      rcases he with he | he
      · exact hs.entry e he
      · obtain ⟨he, hpart⟩ := List.mem_filter.mp he
        obtain rfl := List.mem_singleton.mp he
        obtain rfl : other = part := of_decide_eq_true hpart
        obtain rfl : p = path := Option.some.inj (hp.symm.trans hs.tar)
        exact hs.file
    · have hother : other ≠ part := by
        rintro rfl
        rw [hs.tar] at hnone
        cases hnone
      refine ⟨hfile, by rw [htar, Function.update_of_ne (Ne.symm hother), hs.tar], ?_⟩
      have hkeep : extractionsOf part t = extractionsOf part s := by
        simp [extractionsOf, hrecord, hother]
      rw [hkeep]
      exact hs.entry

/-- An archive that is given by its path and that nothing touches is found again and again. -/
theorem repeatable_of_leavesAlone (files : Files C) {part : Part} (hset : settings.tar part ≠ [])
    (halone : m.LeavesAlone (m.realpath (settings.tar part))) :
    Repeatable part (final (compilePkgs m settings files)) := by
  have hgiven : givenTar m settings part = some (m.realpath (settings.tar part)) := if_neg hset
  have huntouched : Untouched part (m.realpath (settings.tar part))
      (files (m.realpath (settings.tar part))) (final (compilePkgs m settings files)) :=
    (keeps_untouched halone part).compilePkgs ⟨rfl, hgiven, by simp [extractionsOf, start]⟩
  have hremembers : Remembers m settings part (final (compilePkgs m settings files)) :=
    keeps_remembers.compilePkgs (.never rfl rfl)
  refine hremembers.repeatable_iff.mpr fun first rest archive hrecord hfirst later hlater => ?_
  have hmem : first ∈ extractionsOf part (final (compilePkgs m settings files)) := by
    rw [hrecord]
    exact List.mem_cons_self
  have hcontent : files (m.realpath (settings.tar part)) = some archive := by
    rw [← huntouched.entry first hmem, ← hfirst]
    cases hremembers with
    | never hnone htar =>
      rw [hnone] at hmem
      exact absurd hmem List.not_mem_nil
    | given hpath htar hfound =>
      rw [hgiven] at hpath
      obtain rfl := Option.some.inj hpath
      rw [hfound first hmem, if_neg (halone.parts part)]
    | downloaded hpath htar hdir e hrecord' hrest =>
      rw [hgiven] at hpath
      cases hpath
  refine ⟨hset, ?_⟩
  rw [← hcontent]
  refine huntouched.entry later ?_
  rw [hrecord]
  exact List.mem_cons_of_mem _ hlater

end LeavesAlone

end TurrisBuild.CompilePkgs
