import Mathlib.Data.Bool.AllAny
import Mathlib.Data.List.DropRight
import TurrisBuild.Hook.PrePush
import TurrisBuild.Lib.Fields

/-!
# The input of the hook

Git writes one line of text for every pushed reference, and the hook takes it
apart with `read -r`. The local reference is written as it was typed, so one with
a blank in it, such as `HEAD^{/leds bug}`, moves the other fields along. This file
is the hook on that text, and says that it decides about the references
themselves as long as no local reference contains a blank.
-/

namespace TurrisBuild.Hook

open History Fields

/-- `zero_sha1` -/
def zeroSha1 : List Char := "0000000000000000000000000000000000000000".toList

/-- The variables that the loop reads from a line. -/
structure RefTexts where
  localRef : List Char
  localSha1 : List Char
  remoteRef : List Char
  remoteSha1 : List Char

/-- `read -r local_ref local_sha1 remote_ref remote_sha1`: a word for each
variable, and all that remains for the last one. -/
def readRefs (line : List Char) : RefTexts :=
  let localRef := nextWord line
  let localSha1 := nextWord localRef.2
  let remoteRef := nextWord localSha1.2
  ⟨localRef.1, localSha1.1, remoteRef.1, (remoteRef.2.dropWhile isBlank).rdropWhile isBlank⟩

/-- The variables `push_hbk`, `push_hbl` and `push_hbd`. -/
structure PushedTexts where
  hbk : List Char
  hbl : List Char
  hbd : List Char

/-! ### The script -/

section Script

variable {C : Type*} [PartialOrder C] [DecidableLE C]

/-- `git merge-base` for two names. -/
def mergeBaseOf (repo : Repository C) (a b : List Char) : Option C :=
  (repo.revParse a).bind fun c => repo.mergeBaseWith c b

/-- `git merge-base --is-ancestor` for two names. -/
def isAncestorOf (repo : Repository C) (a b : List Char) : Bool :=
  isAncestor (repo.revParse a) (repo.revParse b)

/-- `compare_ancestors` -/
def compareNames (repo : Repository C) (localHash correct invalidA invalidB : List Char) : Bool :=
  if localHash = zeroSha1 then true
  else
    let correctBase := mergeBaseOf repo localHash correct
    isAncestor (mergeBaseOf repo localHash invalidA) correctBase ||
      isAncestor (mergeBaseOf repo localHash invalidB) correctBase

/-- One iteration of the `while read` loop. -/
def hookLine (repo : Repository C) (pushed : PushedTexts) (line : List Char) :
    Except Refusal PushedTexts :=
  let refs := readRefs line
  if refs.localSha1 = zeroSha1 then .ok pushed
  else
    match classify (stripHeads refs.remoteRef) with
    | .hbk => .ok { pushed with hbk := refs.localSha1 }
    | .hbl => .ok { pushed with hbl := refs.localSha1 }
    | .hbd => .ok { pushed with hbd := refs.localSha1 }
    | .topic base otherA otherB =>
      if compareNames repo refs.localSha1 base otherA otherB then .ok pushed
      else .error (.invalidAncestor base refs.localRef)
    | .other =>
      if refs.remoteSha1 = zeroSha1 then .error (.newBranch (stripHeads refs.remoteRef))
      else .ok pushed

/-- The loop over the lines, stopped by the first refused one. -/
def hookLines (repo : Repository C) : PushedTexts → List (List Char) → Except Refusal PushedTexts
  | pushed, [] => .ok pushed
  | pushed, line :: lines =>
    match hookLine repo pushed line with
    | .ok pushed => hookLines repo pushed lines
    | .error refusal => .error refusal

/-- The block for a nonempty `push_hbk`. -/
def hookHbk (repo : Repository C) (tracking : List Char) (pushed : PushedTexts) :
    Except Refusal Unit :=
  if pushed.hbk.isEmpty then .ok ()
  else if (pushed.hbl.isEmpty || pushed.hbd.isEmpty) && !isAncestorOf repo pushed.hbk tracking then
    .error .hbkAlone
  else if pushed.hbl.isEmpty && !isAncestorOf repo pushed.hbk pushed.hbl then .error .hbkNotInHbl
  else if !pushed.hbd.isEmpty && !isAncestorOf repo pushed.hbk pushed.hbd then .error .hbkNotInHbd
  else .ok ()

/-- The block for a nonempty `push_hbl`. -/
def hookHbl (repo : Repository C) (tracking : List Char) (pushed : PushedTexts) :
    Except Refusal Unit :=
  if pushed.hbl.isEmpty then .ok ()
  else if pushed.hbd.isEmpty then
    if isAncestorOf repo pushed.hbl tracking then .ok ()
    else .error (.hblAlone (!pushed.hbk.isEmpty))
  else if isAncestorOf repo pushed.hbl pushed.hbd then .ok ()
  else .error .hblNotInHbd

/-- The whole script on its standard input: `.ok` is exit status 0. The loop ends
at the last newline. -/
def hook (repo : Repository C) (remoteName remoteUrl stdin : List Char) : Except Refusal Unit :=
  if guardsUrl remoteUrl then
    match hookLines repo ⟨[], [], []⟩ (stdin.splitOn '\n').dropLast with
    | .error refusal => .error refusal
    | .ok pushed =>
      match hookHbk repo (trackingName remoteName) pushed with
      | .error refusal => .error refusal
      | .ok () => hookHbl repo (trackingName remoteName) pushed
  else .ok ()

end Script

/-! ### What git writes -/

variable {C : Type*}

/-- The object names of commits: hexadecimal, other than the all-zero name, and
each resolves to its commit. The empty name resolves to nothing. -/
structure ObjectNames (name : C → List Char) (revParse : List Char → Option C) : Prop where
  length : ∀ c, (name c).length = 40
  hex : ∀ c, ∀ d ∈ name c, d ∈ "0123456789abcdef".toList
  ne_zero : ∀ c, name c ≠ zeroSha1
  resolves : ∀ c, revParse (name c) = some c
  empty : revParse [] = none

/-- An object name as git writes it. -/
def Sha.text (name : C → List Char) : Sha C → List Char
  | .zero => zeroSha1
  | .commit c => name c

/-- The line that git writes for a reference. -/
def PushLine.text (name : C → List Char) (line : PushLine C) : List Char :=
  line.localRef ++ ' ' :: (line.localSha1.text name ++
    ' ' :: (line.remoteRef ++ ' ' :: line.remoteSha1.text name))

/-- The standard input of the hook. -/
def hookInput (name : C → List Char) (lines : List (PushLine C)) : List Char :=
  lines.flatMap fun line => line.text name ++ ['\n']

/-- One word on one line. -/
def OneWord (text : List Char) : Prop := IsWord text ∧ '\n' ∉ text

instance (text : List Char) : Decidable (OneWord text) := inferInstanceAs (Decidable (_ ∧ _))

/-- The remote reference is a full name, which never contains a blank. -/
def PushLine.FullName (line : PushLine C) : Prop :=
  "refs/".toList <+: line.remoteRef ∧ OneWord line.remoteRef

/-- The local reference is typed without a blank. -/
def PushLine.BlankFree (line : PushLine C) : Prop := OneWord line.localRef

/-! ### Reading it back -/

/-- The next word of a line that begins with one. -/
theorem nextWord_append {w : List Char} (hw : IsWord w) (rest : List Char) :
    nextWord (w ++ ' ' :: rest) = (w, ' ' :: rest) := by
  obtain ⟨c, w', rfl⟩ := List.exists_cons_of_ne_nil hw.1
  have hc : isBlank c = false := hw.2 c List.mem_cons_self
  have hskip : (c :: w' ++ ' ' :: rest).dropWhile isBlank = c :: w' ++ ' ' :: rest := by
    simp [hc]
  have hword : ∀ d ∈ c :: w', (!isBlank d) = true := by simpa using hw.2
  simp only [nextWord, hskip]
  rw [List.takeWhile_append_of_pos hword, List.dropWhile_append_of_pos hword]
  simp [isBlank]

/-- Blanks before the next word do not count. -/
theorem nextWord_space (rest : List Char) : nextWord (' ' :: rest) = nextWord rest := by
  simp [nextWord, isBlank]

/-- The rest of a line with one word on it is that word. -/
theorem trim_space {w : List Char} (hw : IsWord w) :
    ((' ' :: w).dropWhile isBlank).rdropWhile isBlank = w := by
  obtain ⟨c, w', rfl⟩ := List.exists_cons_of_ne_nil hw.1
  have hc : isBlank c = false := hw.2 c List.mem_cons_self
  have hskip : (' ' :: c :: w').dropWhile isBlank = c :: w' := by
    have hspace : isBlank ' ' = true := rfl
    simp [hspace, hc]
  rw [hskip, List.rdropWhile_eq_self_iff]
  intro hne
  simp [hw.2 _ (List.getLast_mem hne)]

section Read

variable {name : C → List Char} {revParse : List Char → Option C}

/-- A hexadecimal name is one word. -/
theorem ObjectNames.oneWord (hnames : ObjectNames name revParse) (sha : Sha C) :
    OneWord (sha.text name) := by
  cases sha with
  | zero => exact (by decide : OneWord zeroSha1)
  | commit c =>
    have hhex : ∀ d ∈ "0123456789abcdef".toList, isBlank d = false ∧ d ≠ '\n' :=
      List.all_iff_forall_prop.mp (by decide)
    refine ⟨⟨?_, fun d hd => (hhex d (hnames.hex c d hd)).1⟩,
      fun hd => (hhex _ (hnames.hex c _ hd)).2 rfl⟩
    intro hnil
    have hlength := hnames.length c
    rw [show name c = [] from hnil] at hlength
    cases hlength

/-- `read` finds the four fields of a line without further blanks. -/
theorem readRefs_text (hnames : ObjectNames name revParse) {line : PushLine C}
    (hfull : line.FullName) (hfree : line.BlankFree) :
    readRefs (line.text name) =
      ⟨line.localRef, line.localSha1.text name, line.remoteRef, line.remoteSha1.text name⟩ := by
  have hlocal := (hnames.oneWord line.localSha1).1
  have hremote := (hnames.oneWord line.remoteSha1).1
  simp only [readRefs, PushLine.text, nextWord_append hfree.1, nextWord_space,
    nextWord_append hlocal, nextWord_append hfull.2.1, trim_space hremote]

/-- The hook reads the lines that git wrote. -/
theorem splitOn_hookInput (hnames : ObjectNames name revParse) {lines : List (PushLine C)}
    (hfull : ∀ line ∈ lines, line.FullName) (hfree : ∀ line ∈ lines, line.BlankFree) :
    ((hookInput name lines).splitOn '\n').dropLast = lines.map (PushLine.text name) := by
  have hsplit : (hookInput name lines).splitOn '\n' = lines.map (PushLine.text name) ++ [[]] := by
    induction lines with
    | nil => rfl
    | cons line lines ih =>
      have hline : '\n' ∉ line.text name := by
        simp [PushLine.text, (hfree line List.mem_cons_self).2, (hfull line List.mem_cons_self).2.2,
          (hnames.oneWord _).2]
      have htail := ih (fun l hl => hfull l (List.mem_cons_of_mem _ hl))
        fun l hl => hfree l (List.mem_cons_of_mem _ hl)
      rw [hookInput, List.flatMap_cons, List.append_assoc, List.singleton_append,
        List.splitOn_append_cons_self_of_not_mem hline]
      rw [hookInput] at htail
      rw [htail, List.map_cons, List.cons_append]
  rw [hsplit, List.dropLast_concat]

end Read

/-! ### The hook decides about the references -/

section Agreement

variable [PartialOrder C] [DecidableLE C] {name : C → List Char} {repo : Repository C}

/-- The variables of the script for the commits found so far. -/
def Pushed.texts (name : C → List Char) (pushed : Pushed C) : PushedTexts :=
  ⟨pushed.hbk.elim [] name, pushed.hbl.elim [] name, pushed.hbd.elim [] name⟩

omit [DecidableLE C] in
private theorem isEmpty_text (hnames : ObjectNames name repo.revParse) (c : Option C) :
    (c.elim [] name).isEmpty = c.isNone := by
  cases c with
  | none => rfl
  | some c =>
    have hword : name c ≠ [] := (hnames.oneWord (.commit c)).1.1
    simpa using hword

omit [DecidableLE C] in
private theorem revParse_text (hnames : ObjectNames name repo.revParse) (c : Option C) :
    repo.revParse (c.elim [] name) = c := by
  cases c with
  | none => exact hnames.empty
  | some c => exact hnames.resolves c

/-- A line is treated like the reference it is about. -/
theorem hookLine_text (hnames : ObjectNames name repo.revParse) {line : PushLine C}
    (hfull : line.FullName) (hfree : line.BlankFree) (pushed : Pushed C) :
    hookLine repo (pushed.texts name) (line.text name) =
      (readLine repo pushed line).map (Pushed.texts name) := by
  unfold hookLine readLine
  rw [readRefs_text hnames hfull hfree]
  dsimp only
  cases hsha : line.localSha1 with
  | zero => simp [Sha.text, Except.map]
  | commit c =>
    have hne : name c ≠ zeroSha1 := hnames.ne_zero c
    rw [if_neg (show (Sha.commit c).text name ≠ zeroSha1 from hne)]
    cases hclass : classify (stripHeads line.remoteRef) with
    | hbk => rfl
    | hbl => rfl
    | hbd => rfl
    | topic base otherA otherB =>
      have hcompare : compareNames repo (name c) base otherA otherB =
          compareAncestors repo (.commit c) base otherA otherB := by
        simp [compareNames, compareAncestors, mergeBaseOf, hne, hnames.resolves]
      simp only [Sha.text, hcompare]
      cases compareAncestors repo (.commit c) base otherA otherB <;> rfl
    | other =>
      cases hremote : line.remoteSha1 with
      | zero => simp [Sha.text, Except.map]
      | commit d =>
        have hne' : name d ≠ zeroSha1 := hnames.ne_zero d
        simp [Sha.text, Except.map, hne']

/-- So are all lines. -/
theorem hookLines_text (hnames : ObjectNames name repo.revParse) {lines : List (PushLine C)}
    (hfull : ∀ line ∈ lines, line.FullName) (hfree : ∀ line ∈ lines, line.BlankFree)
    (pushed : Pushed C) :
    hookLines repo (pushed.texts name) (lines.map (PushLine.text name)) =
      (readLines repo pushed lines).map (Pushed.texts name) := by
  induction lines generalizing pushed with
  | nil => rfl
  | cons line lines ih =>
    rw [List.map_cons, hookLines, readLines, hookLine_text hnames (hfull line List.mem_cons_self)
      (hfree line List.mem_cons_self)]
    cases readLine repo pushed line with
    | error refusal => rfl
    | ok next =>
      exact ih (fun l hl => hfull l (List.mem_cons_of_mem _ hl))
        (fun l hl => hfree l (List.mem_cons_of_mem _ hl)) next

private theorem hookHbk_texts (hnames : ObjectNames name repo.revParse) (tracking : List Char)
    (pushed : Pushed C) :
    hookHbk repo tracking (pushed.texts name) = checkHbk (repo.revParse tracking) pushed := by
  simp only [hookHbk, checkHbk, Pushed.texts, isAncestorOf, isEmpty_text hnames,
    revParse_text hnames]
  cases pushed.hbk with
  | none => rfl
  | some k => simp [Option.isNone_iff_eq_none, Option.not_isNone]

private theorem hookHbl_texts (hnames : ObjectNames name repo.revParse) (tracking : List Char)
    (pushed : Pushed C) :
    hookHbl repo tracking (pushed.texts name) = checkHbl (repo.revParse tracking) pushed := by
  simp only [hookHbl, checkHbl, Pushed.texts, isAncestorOf, isEmpty_text hnames,
    revParse_text hnames]
  cases pushed.hbl with
  | none => rfl
  | some l => simp

/-- **The hook reads what git wrote.** When no local reference contains a blank,
the script decides about the pushed references themselves. -/
theorem hook_eq_prePush (hnames : ObjectNames name repo.revParse) {lines : List (PushLine C)}
    (hfull : ∀ line ∈ lines, line.FullName) (hfree : ∀ line ∈ lines, line.BlankFree)
    (remoteName remoteUrl : List Char) :
    hook repo remoteName remoteUrl (hookInput name lines) =
      prePush repo remoteName remoteUrl lines := by
  have hlines := hookLines_text hnames hfull hfree .empty
  change hookLines repo ⟨[], [], []⟩ _ = _ at hlines
  unfold hook prePush
  rw [splitOn_hookInput hnames hfull hfree, hlines]
  cases readLines repo Pushed.empty lines with
  | error refusal => rfl
  | ok pushed =>
    cases hcheck : checkHbk (repo.revParse (trackingName remoteName)) pushed <;>
      simp [Except.map, hookHbk_texts hnames, hookHbl_texts hnames, hcheck]

end Agreement

end TurrisBuild.Hook
