import TurrisBuild.Lib.FileSystem

/-!
# The source overlay of OpenWrt and the feeds

`patch_openwrt` and `repatch_feeds` of `compile_pkgs` lay the trees under `src/` over
a patched repository, first the common one and then that of the board. Before each,
the paths of a clean list are removed, and both changes are committed. The shell, `cp`,
`find` and `git` each go through the overlay in their own way.
-/

namespace TurrisBuild.SourceOverlay

open FileSystem

variable {C : Type}

/-- The paths that an entry of a clean list stands for. -/
abbrev Pathspec := Path → Bool

/-- An entry without wildcards, which stands for a path and what is below it. -/
def literal (path : Path) : Pathspec := fun p => path.isPrefixOf p

/-- The tree below an overlay directory, in the order in which `cp -r` comes to it. It is
itself kept in a repository, which has no `.git` in it. -/
structure Overlay (C : Type) where
  entries : Files C
  proper : ∀ e ∈ entries, e.1 ≠ [] ∧ ".git".toList ∉ e.1
  ordered : entries.Pairwise fun e e' => ¬ e'.1 <+: e.1
  parents : ∀ e ∈ entries, ∀ d, d ≠ [] → d <+: e.1 → d ≠ e.1 → (d, .dir) ∈ entries

/-- What there is under `src/` for one level. -/
structure Level (C : Type) where
  clean : Option (List Pathspec)
  overlay : Option (Overlay C)

/-- The file system with the work tree, and the last commit, which the index agrees with
between the commands. -/
structure State (C : Type) where
  files : Files C
  tree : Files C

/-- The shell's `*` passes over the names that begin with a dot. -/
def isHidden (p : Path) : Bool := p.head?.any fun name => name.head? == some '.'

/-- The files that the shell gives to `cp`. -/
def Overlay.visible (o : Overlay C) : Files C := o.entries.filter fun e => !isHidden e.1

/-- The paths that `find -type f` prints. -/
def Overlay.regular (o : Overlay C) : List Path :=
  o.entries.filterMap fun e => match e.2 with
    | .file _ => some e.1
    | _ => none

/-- What the overlay has for a regular file. -/
def Overlay.content (o : Overlay C) (p : Path) : Option C :=
  match node o.entries p with
  | some (.file c) => some c
  | _ => none

section Commands

variable (top : Path)

/-- One step of `cp -r` into the work tree. It follows a link that stands where a regular
file is to go, and no other. -/
def copyEntry (files : Files C) (e : Path × Node C) : Option (Files C) :=
  let place := top ++ e.1
  match e.2, node files place with
  | .dir, none => some (put files place .dir)
  | .dir, some .dir => some files
  | .dir, some _ => none
  | .link _, some .dir => none
  | .link l, _ => some (put files place (.link l))
  | .file _, some .dir => none
  | .file c, some (.link _) => do
    let target ← canonical files place
    match node files target with
    | some (.file _) => some (put files target (.file c))
    | _ => none
  | .file c, _ => some (put files place (.file c))

/-- `cp -r openwrt/* .`, which fails without a file to copy. -/
def Overlay.copy (o : Overlay C) (files : Files C) : Option (Files C) :=
  if o.visible.isEmpty then none else o.visible.foldlM (copyEntry top) files

/-- The paths of the work tree below a directory that `git add` takes up with it. -/
def below (ignored : Files C → Path → Bool) (files tree : Files C) (p : Path) : Files C :=
  files.filterMap fun e =>
    let r := e.1.drop top.length
    if (top ++ p).isPrefixOf e.1 && !isDir files e.1 && !r.contains ".git".toList &&
        ((node tree r).isSome || !ignored files r) then some (r, e.2)
    else none

/-- `git add` of a path into the index. The path is taken as it is, also if a name in it
could be read as a pattern. -/
def gitAdd (ignored : Files C → Path → Bool) (files tree : Files C) (p : Path) :
    Option (Files C) :=
  if p.inits.any fun d => d != p && !isDir files (top ++ d) then none
  else match node files (top ++ p) with
    | some .dir =>
      if ignored files p && !(tree.any fun e => p.isPrefixOf e.1) then none
      else some (below top ignored files tree p ++ keep (fun q => !p.isPrefixOf q) tree)
    | some n =>
      if (node tree p).isSome || !ignored files p then some (put tree p n) else none
    -- What is gone from the work tree is taken out of the index.
    | none =>
      if tree.any fun e => p.isPrefixOf e.1 then some (keep (fun q => !p.isPrefixOf q) tree)
      else none

variable [DecidableEq C]

/-- `git commit`, which fails when nothing has changed. -/
def commit (s s' : State C) : Option (State C) :=
  if (s.tree ++ s'.tree).all fun e => node s.tree e.1 == node s'.tree e.1 then none else some s'

/-- The file in the work tree is the one that was committed, or there is none. -/
def unmodified (s : State C) (p : Path) : Bool :=
  match node s.files (top ++ p) with
  | none | some .dir => true
  | some n => node s.tree p == some n

/-- The directories that nothing is left in when the given paths are gone. -/
def emptied (gone : Path → Bool) (files : Files C) (d : Path) : Bool :=
  let above (d : Path) : Bool := files.any fun e => d.isPrefixOf e.1 && gone e.1
  isDir files d && above d && files.all fun e =>
    !d.isPrefixOf e.1 || gone e.1 || isDir files e.1 && above e.1

/-- `git rm -r`. Every entry has to stand for something, and nothing that it removes may
have been changed. -/
def gitRm (specs : List Pathspec) (s : State C) : Option (State C) :=
  let removed (p : Path) : Bool := specs.any (· p) && (node s.tree p).isSome
  let gone (q : Path) : Bool :=
    top.isPrefixOf q && removed (q.drop top.length) && !isDir s.files q
  if !specs.isEmpty && (specs.all fun spec => s.tree.any fun e => spec e.1) &&
      s.tree.all fun e => !removed e.1 || unmodified top s e.1 then
    some
      { files := keep (fun q =>
          !(gone q || top.isPrefixOf q && q != top && emptied gone s.files q)) s.files
        tree := keep (fun p => !removed p) s.tree }
  else none

/-- The removal of the excess files. -/
def Level.cleanUp (level : Level C) (s : State C) : Option (State C) :=
  match level.clean with
  | none => some s
  | some specs => do commit s (← gitRm top specs s)

variable (ignored : Files C → Path → Bool)

/-- The additional files of an overlay. -/
def Overlay.add (o : Overlay C) (s : State C) : Option (State C) := do
  let files ← o.copy top s.files
  let tree ← o.regular.foldlM (gitAdd top ignored files) s.tree
  commit s ⟨files, tree⟩

/-- One pass of the loop over the levels. -/
def Level.apply (level : Level C) (s : State C) : Option (State C) := do
  let s ← level.cleanUp top s
  match level.overlay with
  | none => some s
  | some o => o.add top ignored s

/-- The loop over the levels. -/
def applyLevels (levels : List (Level C)) (s : State C) : Option (State C) :=
  levels.foldlM (fun s level => level.apply top ignored s) s

/-- `patch_openwrt` after the patches have been applied. -/
def patchOpenwrt (common board : Level C) (patched : State C) : Option (State C) :=
  applyLevels top ignored [common, board] patched

end Commands

section Copy

variable {top : Path} {files files' : Files C}

/-- What `cp` does for one file of the overlay. -/
theorem copyEntry_cases {e : Path × Node C} (h : copyEntry top files e = some files') :
    (e.2 = .dir ∧ node files (top ++ e.1) = some .dir ∧ files' = files) ∨
    ((e.2 = .dir → node files (top ++ e.1) = none) ∧
      (∀ c, e.2 = .file c → ∀ l, node files (top ++ e.1) ≠ some (.link l)) ∧
      files' = put files (top ++ e.1) e.2) ∨
    ∃ c l target old, e.2 = .file c ∧ node files (top ++ e.1) = some (.link l) ∧
      node files target = some (.file old) ∧ files' = put files target (.file c) := by
  obtain ⟨p, n⟩ := e
  unfold copyEntry at h
  simp only at h ⊢
  split at h
  · next hnode =>
    exact .inr (.inl ⟨fun _ => hnode, nofun, (Option.some.inj h).symm⟩)
  · next hnode => exact .inl ⟨rfl, hnode, (Option.some.inj h).symm⟩
  · cases h
  · cases h
  · exact .inr (.inl ⟨nofun, nofun, (Option.some.inj h).symm⟩)
  · cases h
  · next c l hnode =>
    obtain ⟨target, -, hwrite⟩ := Option.bind_eq_some_iff.mp h
    split at hwrite
    · next old htarget =>
      exact .inr (.inr ⟨c, l, target, old, rfl, hnode, htarget, (Option.some.inj hwrite).symm⟩)
    · cases hwrite
  · next c _ hlink =>
    exact .inr (.inl ⟨nofun, fun c' _ l => hlink l, (Option.some.inj h).symm⟩)

/-- Without a link in the place of a regular file, each file is copied to its own place
and no other file changes. -/
theorem copy_plain {es : Files C} (h : es.foldlM (copyEntry top) files = some files')
    (hes : es.Pairwise fun e e' => e.1 ≠ e'.1)
    (hlinks : ∀ p c, (p, .file c) ∈ es → ∀ l, node files (top ++ p) ≠ some (.link l)) :
    (∀ p c, (p, .file c) ∈ es → node files' (top ++ p) = some (.file c)) ∧
    ∀ q, (∀ e ∈ es, q ≠ top ++ e.1) → node files' q = node files q := by
  induction es generalizing files with
  | nil =>
    obtain rfl := Option.some.inj h
    simp
  | cons e es ih =>
    obtain ⟨files₁, hstep, hrest⟩ := Option.bind_eq_some_iff.mp h
    obtain ⟨hne, hes⟩ := List.pairwise_cons.mp hes
    have hstep_node : (∀ c, e.2 = .file c → node files₁ (top ++ e.1) = some (.file c)) ∧
        ∀ q, q ≠ top ++ e.1 → node files₁ q = node files q := by
      obtain ⟨hdir, -, rfl⟩ | ⟨-, -, rfl⟩ | ⟨c, l, _, _, hc, hl, -⟩ := copyEntry_cases hstep
      · refine ⟨fun c hc => ?_, fun _ _ => rfl⟩
        rw [hdir] at hc
        cases hc
      · refine ⟨fun c hc => ?_, fun q hq => ?_⟩
        · rw [node_put, if_pos rfl, hc]
        · rw [node_put, if_neg hq]
      · exact absurd hl (hlinks e.1 c (hc ▸ List.mem_cons_self) l)
    have hother : ∀ e' ∈ es, top ++ e'.1 ≠ top ++ e.1 :=
      fun e' he' heq => hne e' he' (List.append_cancel_left heq).symm
    obtain ⟨hcopied, hframe⟩ := ih hrest hes fun p c hp l => by
      rw [hstep_node.2 _ (hother _ hp)]
      exact hlinks p c (List.mem_cons_of_mem _ hp) l
    refine ⟨fun p c hp => ?_, fun q hq => ?_⟩
    · rcases List.mem_cons.mp hp with rfl | hp
      · rw [hframe _ fun e' he' => (hother e' he').symm]
        exact hstep_node.1 c rfl
      · exact hcopied p c hp
    · rw [hframe q fun e' he' => hq e' (List.mem_cons_of_mem _ he')]
      exact hstep_node.2 q (hq e List.mem_cons_self)

/-- A link stays where it is if the overlay has no other link for it. -/
theorem copy_link {es : Files C} (h : es.foldlM (copyEntry top) files = some files') {q : Path}
    {l : Link} (hq : node files q = some (.link l))
    (hes : ∀ p l', (p, .link l') ∈ es → q ≠ top ++ p) : node files' q = some (.link l) := by
  induction es generalizing files with
  | nil =>
    obtain rfl := Option.some.inj h
    exact hq
  | cons e es ih =>
    obtain ⟨files₁, hstep, hrest⟩ := Option.bind_eq_some_iff.mp h
    refine ih hrest ?_ fun p l' hp => hes p l' (List.mem_cons_of_mem _ hp)
    obtain ⟨-, -, rfl⟩ | ⟨hdir, hfile, rfl⟩ | ⟨c, _, target, old, -, -, htarget, rfl⟩ :=
      copyEntry_cases hstep
    · exact hq
    · rw [node_put]
      split
      · next heq =>
        rw [heq] at hq
        obtain ⟨p, n⟩ := e
        cases n with
        | dir => rw [hdir rfl] at hq; cases hq
        | file c => exact absurd hq (hfile c rfl l)
        | link l' => exact absurd heq (hes p l' List.mem_cons_self)
      · exact hq
    · rw [node_put, if_neg]
      · exact hq
      · rintro rfl
        rw [htarget] at hq
        cases hq

end Copy

section Add

variable {top : Path} {ignored : Files C → Path → Bool} {files tree tree' : Files C} {p : Path}

/-- What the index can get from the work tree. -/
def stageable (n : Node C) : Bool :=
  match n with
  | .dir => false
  | _ => true

/-- What is taken up with a directory lies in it. -/
private theorem mem_below {e : Path × Node C} (he : e ∈ below top ignored files tree p) :
    p <+: e.1 ∧ isDir files (top ++ e.1) = false := by
  obtain ⟨e₀, -, hsome⟩ := List.mem_filterMap.mp he
  simp only at hsome
  split at hsome
  · next htest =>
    simp only [Bool.and_eq_true, Bool.not_eq_true', List.isPrefixOf_iff_prefix] at htest
    obtain ⟨⟨⟨⟨t, ht⟩, hdir⟩, -⟩, -⟩ := htest
    obtain rfl := Option.some.inj hsome
    rw [List.append_assoc] at ht
    simp only [← ht, List.drop_left]
    exact ⟨List.prefix_append _ _, ht ▸ hdir⟩
  · cases hsome

private theorem node_keep_outside (q : Path) :
    node (keep (fun q => !p.isPrefixOf q) tree) q = if p <+: q then none else node tree q := by
  rw [node_keep]
  by_cases hq : p <+: q
  · rw [if_pos hq, List.isPrefixOf_iff_prefix.mpr hq]
    rfl
  · rw [if_neg hq, Bool.eq_false_iff.mpr (mt List.isPrefixOf_iff_prefix.mp hq)]
    rfl

/-- `git add` brings the path to the index as it is in the work tree. Only a directory
takes anything else with it. -/
theorem gitAdd_node (h : gitAdd top ignored files tree p = some tree') :
    node tree' p = (node files (top ++ p)).filter stageable ∧
    (∀ q, ¬ p <+: q → node tree' q = node tree q) ∧
    ∀ c, node files (top ++ p) = some (.file c) → ∀ q, q ≠ p → node tree' q = node tree q := by
  unfold gitAdd at h
  split at h
  · cases h
  · split at h
    · next hdir =>
      split at h
      · cases h
      · obtain rfl := Option.some.inj h
        refine ⟨?_, fun q hq => ?_, fun c hc => ?_⟩
        · have hnone : node (below top ignored files tree p) p = none := by
            refine node_eq_none fun e he heq => ?_
            have hno := (mem_below he).2
            rw [heq, isDir_iff.mpr hdir] at hno
            cases hno
          rw [node_append, hnone, node_keep_outside, if_pos List.prefix_rfl, hdir]
          rfl
        · have hnone : node (below top ignored files tree p) q = none :=
            node_eq_none fun e he heq => hq (heq ▸ (mem_below he).1)
          rw [node_append, hnone, node_keep_outside, if_neg hq]
          rfl
        · rw [hdir] at hc
          cases hc
    · next n hno hnode =>
      split at h
      · obtain rfl := Option.some.inj h
        refine ⟨?_, fun q hq => ?_, fun c _ q hq => ?_⟩
        · rw [node_put, if_pos rfl, hnode]
          cases n with
          | dir => exact absurd rfl hno
          | file c => rfl
          | link l => rfl
        · rw [node_put, if_neg]
          rintro rfl
          exact hq List.prefix_rfl
        · rw [node_put, if_neg hq]
      · cases h
    · next hnode =>
      split at h
      · obtain rfl := Option.some.inj h
        refine ⟨?_, fun q hq => ?_, fun c hc => ?_⟩
        · rw [node_keep_outside, if_pos List.prefix_rfl, hnode]
          rfl
        · rw [node_keep_outside, if_neg hq]
        · rw [hnode] at hc
          cases hc
      · cases h

/-- Paths none of which lies under another come to the index as they are in the work
tree. -/
theorem gitAdds_node {ps : List Path} (h : ps.foldlM (gitAdd top ignored files) tree = some tree')
    (hps : ps.Pairwise fun p p' => ¬ p <+: p' ∧ ¬ p' <+: p) (hp : p ∈ ps) :
    node tree' p = (node files (top ++ p)).filter stageable := by
  have hframe : ∀ (ps : List Path) (tree : Files C),
      ps.foldlM (gitAdd top ignored files) tree = some tree' → (∀ p' ∈ ps, ¬ p' <+: p) →
        node tree' p = node tree p := by
    intro ps
    induction ps with
    | nil =>
      intro tree h _
      rw [Option.some.inj h]
    | cons p' ps ih =>
      intro tree h hps
      obtain ⟨tree₁, hstep, hrest⟩ := Option.bind_eq_some_iff.mp h
      rw [ih tree₁ hrest fun p'' hp'' => hps p'' (List.mem_cons_of_mem _ hp'')]
      exact (gitAdd_node hstep).2.1 p (hps p' List.mem_cons_self)
  induction ps generalizing tree with
  | nil => cases hp
  | cons p' ps ih =>
    obtain ⟨tree₁, hstep, hrest⟩ := Option.bind_eq_some_iff.mp h
    obtain ⟨hapart, hps⟩ := List.pairwise_cons.mp hps
    rcases List.mem_cons.mp hp with rfl | hp
    · rw [hframe ps tree₁ hrest fun p'' hp'' => (hapart p'' hp'').2]
      exact (gitAdd_node hstep).1
    · exact ih hrest hps hp

/-- Regular files come to the index without any other change. -/
theorem gitAdds_frame {ps : List Path}
    (h : ps.foldlM (gitAdd top ignored files) tree = some tree')
    (hps : ∀ p ∈ ps, ∃ c, node files (top ++ p) = some (.file c)) {q : Path} (hq : q ∉ ps) :
    node tree' q = node tree q := by
  induction ps generalizing tree with
  | nil => rw [Option.some.inj h]
  | cons p ps ih =>
    obtain ⟨tree₁, hstep, hrest⟩ := Option.bind_eq_some_iff.mp h
    obtain ⟨hne, hq⟩ := not_or.mp (mt List.mem_cons.mpr hq)
    obtain ⟨c, hc⟩ := hps p List.mem_cons_self
    rw [ih hrest (fun p' hp' => hps p' (List.mem_cons_of_mem _ hp')) hq]
    exact (gitAdd_node hstep).2.2 c hc q hne

end Add

section Exact

variable {o : Overlay C} {p : Path} {c : C}

/-- The paths of an overlay are distinct. -/
theorem Overlay.distinct (o : Overlay C) : o.entries.Pairwise fun e e' => e.1 ≠ e'.1 :=
  o.ordered.imp fun {e e'} hprefix (heq : e.1 = e'.1) => hprefix (heq ▸ List.prefix_rfl)

private theorem Overlay.content_eq_some_iff : o.content p = some c ↔ (p, .file c) ∈ o.entries := by
  unfold Overlay.content
  constructor
  · intro h
    split at h
    · next c' hnode =>
      rw [← Option.some.inj h]
      exact mem_of_node hnode
    · cases h
  · intro h
    rw [node_of_mem o.distinct h]

private theorem Overlay.mem_regular_iff : p ∈ o.regular ↔ ∃ c, o.content p = some c := by
  simp only [Overlay.content_eq_some_iff, Overlay.regular, List.mem_filterMap]
  constructor
  · rintro ⟨⟨q, n⟩, hmem, hn⟩
    cases n with
    | file c =>
      obtain rfl := Option.some.inj hn
      exact ⟨c, hmem⟩
    | dir => cases hn
    | link l => cases hn
  · rintro ⟨c, hmem⟩
    exact ⟨_, hmem, rfl⟩

/-- No regular file lies under another, as a tree has directories above its files. -/
theorem Overlay.regular_apart (o : Overlay C) :
    o.regular.Pairwise fun p p' => ¬ p <+: p' ∧ ¬ p' <+: p := by
  have hnot : ∀ p p' c c', (p, .file c) ∈ o.entries → (p', .file c') ∈ o.entries → p ≠ p' →
      ¬ p <+: p' := by
    intro p p' c c' hp hp' hne hprefix
    have hdir := node_of_mem o.distinct (o.parents _ hp' p (o.proper _ hp).1 hprefix hne)
    rw [node_of_mem o.distinct hp] at hdir
    cases hdir
  refine List.pairwise_filterMap.mpr (o.distinct.imp_of_mem ?_)
  rintro ⟨p, n⟩ ⟨p', n'⟩ hp hp' hne q hq q' hq'
  cases n with
  | file c =>
    cases n' with
    | file c' =>
      obtain rfl := Option.some.inj hq
      obtain rfl := Option.some.inj hq'
      exact ⟨hnot _ _ _ _ hp hp' hne, hnot _ _ _ _ hp' hp hne.symm⟩
    | dir => cases hq'
    | link l => cases hq'
  | dir => cases hq
  | link l => cases hq

private theorem Overlay.mem_visible_iff {e : Path × Node C} :
    e ∈ o.visible ↔ e ∈ o.entries ∧ isHidden e.1 = false := by
  rw [Overlay.visible, List.mem_filter, Bool.not_eq_true']

/-- The work tree has no link in the place of a regular file that is copied, and where one
is passed over, it is there already. -/
def Overlay.Fits (top : Path) (o : Overlay C) (files : Files C) : Prop :=
  ∀ p c, o.content p = some c →
    if isHidden p then node files (top ++ p) = some (.file c)
    else ∀ l, node files (top ++ p) ≠ some (.link l)

/-- Where no link is in the way, the copy does not reach what the shell passes over. -/
private theorem Overlay.copy_hidden {top : Path} {files files' : Files C}
    (hcopy : o.visible.foldlM (copyEntry top) files = some files')
    (hlinks : ∀ p c, (p, .file c) ∈ o.visible → ∀ l, node files (top ++ p) ≠ some (.link l))
    (hhidden : isHidden p = true) : node files' (top ++ p) = node files (top ++ p) := by
  refine (copy_plain hcopy (o.distinct.filter _) hlinks).2 _ fun e he heq => ?_
  rw [List.append_cancel_left heq, (Overlay.mem_visible_iff.mp he).2] at hhidden
  cases hhidden

/-- A file of the overlay does not meet a link. -/
theorem Overlay.Fits.links {top : Path} {files : Files C} (hfits : o.Fits top files) :
    ∀ p c, (p, .file c) ∈ o.visible → ∀ l, node files (top ++ p) ≠ some (.link l) := by
  intro p c hp
  obtain ⟨hmem, hvisible⟩ := Overlay.mem_visible_iff.mp hp
  have hfit := hfits p c (Overlay.content_eq_some_iff.mpr hmem)
  rwa [if_neg (Bool.eq_false_iff.mp hvisible)] at hfit

variable [DecidableEq C] {top : Path} {ignored : Files C → Path → Bool} {s s' : State C}

private theorem commit_eq_some {s₁ : State C} (h : commit s s₁ = some s') : s' = s₁ := by
  unfold commit at h
  split at h
  · cases h
  · exact (Option.some.inj h).symm

private theorem Overlay.add_eq_some (h : o.add top ignored s = some s') :
    o.visible.foldlM (copyEntry top) s.files = some s'.files ∧
      o.regular.foldlM (gitAdd top ignored s'.files) s.tree = some s'.tree := by
  obtain ⟨files, hcopy, hrest⟩ := Option.bind_eq_some_iff.mp h
  obtain ⟨tree, hadd, hcommit⟩ := Option.bind_eq_some_iff.mp hrest
  obtain rfl := commit_eq_some hcommit
  refine ⟨?_, hadd⟩
  unfold Overlay.copy at hcopy
  split at hcopy
  · cases hcopy
  · exact hcopy

/-- After the copy, every regular file of an overlay that fits is in the work tree. -/
theorem Overlay.copied (hfits : o.Fits top s.files) (h : o.add top ignored s = some s')
    (hp : o.content p = some c) : node s'.files (top ++ p) = some (.file c) := by
  obtain ⟨hcopy, -⟩ := Overlay.add_eq_some h
  have hmem := Overlay.content_eq_some_iff.mp hp
  cases hhidden : isHidden p with
  | false =>
    exact (copy_plain hcopy (o.distinct.filter _) hfits.links).1 p c
      (Overlay.mem_visible_iff.mpr ⟨hmem, hhidden⟩)
  | true =>
    have hfit := hfits p c hp
    rw [if_pos hhidden] at hfit
    rw [Overlay.copy_hidden hcopy hfits.links hhidden, hfit]

/-- The commit of an overlay has its regular files and is otherwise what was there exactly
when the overlay fits. -/
theorem Overlay.add_exact_iff (h : o.add top ignored s = some s') :
    (∀ q, node s'.tree q = match o.content q with
      | some c => some (.file c)
      | none => node s.tree q) ↔ o.Fits top s.files := by
  obtain ⟨hcopy, hadd⟩ := Overlay.add_eq_some h
  have hadded : ∀ p c, o.content p = some c →
      node s'.tree p = (node s'.files (top ++ p)).filter stageable :=
    fun p c hp => gitAdds_node hadd o.regular_apart (Overlay.mem_regular_iff.mpr ⟨c, hp⟩)
  constructor
  · intro hexact
    have hcommitted : ∀ p c, o.content p = some c → node s'.files (top ++ p) = some (.file c) := by
      intro p c hp
      have hnode := hexact p
      rw [hp, hadded p c hp, Option.filter_eq_some_iff] at hnode
      exact hnode.1
    -- A link in the way would have stayed, and would have been committed.
    have hlinks : ∀ p c, (p, .file c) ∈ o.visible → ∀ l,
        node s.files (top ++ p) ≠ some (.link l) := by
      intro p c hp l hl
      obtain ⟨hmem, -⟩ := Overlay.mem_visible_iff.mp hp
      have hstays := copy_link hcopy hl fun p' l' hp' heq => by
        obtain ⟨hmem', -⟩ := Overlay.mem_visible_iff.mp hp'
        rw [← List.append_cancel_left heq] at hmem'
        have hnode := node_of_mem o.distinct hmem
        rw [node_of_mem o.distinct hmem'] at hnode
        cases hnode
      rw [hcommitted p c (Overlay.content_eq_some_iff.mpr hmem)] at hstays
      cases hstays
    intro p c hp
    have hmem := Overlay.content_eq_some_iff.mp hp
    cases hhidden : isHidden p with
    | false =>
      rw [if_neg Bool.false_ne_true]
      exact hlinks p c (Overlay.mem_visible_iff.mpr ⟨hmem, hhidden⟩)
    | true =>
      rw [if_pos rfl, ← hcommitted p c hp, Overlay.copy_hidden hcopy hlinks hhidden]
  · intro hfits q
    cases hq : o.content q with
    | some c =>
      rw [hadded q c hq, Overlay.copied hfits h hq]
      rfl
    | none =>
      refine gitAdds_frame hadd (fun p hp => ?_) fun hq' => ?_
      · obtain ⟨c, hc⟩ := Overlay.mem_regular_iff.mp hp
        exact ⟨c, Overlay.copied hfits h hc⟩
      · obtain ⟨c, hc⟩ := Overlay.mem_regular_iff.mp hq'
        rw [hq] at hc
        cases hc

end Exact

/-- The clean list of the level has an entry for the path. -/
def Level.covers (level : Level C) (p : Path) : Bool :=
  level.clean.any fun specs => specs.any (· p)

/-- What a level is for: the paths of its clean list are removed, and each regular file of
its overlay is made a regular file with that content. -/
def Level.expected (level : Level C) (tree : Path → Option (Node C)) (p : Path) :
    Option (Node C) :=
  match level.overlay.bind (·.content p) with
  | some c => some (.file c)
  | none => if level.covers p then none else tree p

/-- The commit is what the level is for. -/
def Level.Exact (level : Level C) (s s' : State C) : Prop :=
  ∀ p, node s'.tree p = level.expected (node s.tree) p

section Levels

variable [DecidableEq C] {top : Path} {ignored : Files C → Path → Bool} {level : Level C}
  {s s' : State C}

/-- The overlay fits the work tree that the clean list leaves. -/
def Level.Fits (top : Path) (level : Level C) (s : State C) : Prop :=
  ∀ s₁, level.cleanUp top s = some s₁ → ∀ o, level.overlay = some o → o.Fits top s₁.files

private theorem gitRm_tree {specs : List Pathspec} (h : gitRm top specs s = some s') (p : Path) :
    node s'.tree p = if specs.any (· p) then none else node s.tree p := by
  unfold gitRm at h
  simp only at h
  split at h
  · obtain rfl := Option.some.inj h
    rw [node_keep]
    cases specs.any (· p) with
    | false => rfl
    | true =>
      cases hnode : node s.tree p with
      | none => rfl
      | some n => rfl
  · cases h

private theorem Level.cleanUp_tree (h : level.cleanUp top s = some s') (p : Path) :
    node s'.tree p = if level.covers p then none else node s.tree p := by
  unfold Level.cleanUp at h
  unfold Level.covers
  split at h
  · next hclean =>
    obtain rfl := Option.some.inj h
    rw [hclean]
    rfl
  · next specs hclean =>
    obtain ⟨s₁, hrm, hcommit⟩ := Option.bind_eq_some_iff.mp h
    obtain rfl := commit_eq_some hcommit
    rw [gitRm_tree hrm, hclean]
    rfl

/-- A pass of the loop commits what the level is for exactly when the overlay fits. -/
theorem Level.apply_exact_iff (h : level.apply top ignored s = some s') :
    level.Exact s s' ↔ level.Fits top s := by
  obtain ⟨s₁, hclean, hadd⟩ := Option.bind_eq_some_iff.mp h
  have hfits : level.Fits top s ↔ ∀ o, level.overlay = some o → o.Fits top s₁.files := by
    constructor
    · intro hfits
      exact hfits s₁ hclean
    · intro hfits s₂ hs₂
      obtain rfl := Option.some.inj (hclean.symm.trans hs₂)
      exact hfits
  rw [hfits]
  unfold Level.Exact Level.expected
  split at hadd
  · next hnone =>
    obtain rfl := Option.some.inj hadd
    simp [hnone, Level.cleanUp_tree hclean]
  · next o ho =>
    simp only [ho, Option.some.injEq, forall_eq', Option.bind_some]
    rw [← Overlay.add_exact_iff hadd]
    refine forall_congr' fun p => ?_
    cases o.content p with
    | some c => rfl
    | none => rw [Level.cleanUp_tree hclean]

variable (top ignored) in
/-- A property of every pass of the loop with the states before and after it. -/
def EachPass (P : Level C → State C → State C → Prop) : List (Level C) → State C → Prop
  | [], _ => True
  | level :: levels, s =>
    ∃ s₁, level.apply top ignored s = some s₁ ∧ P level s s₁ ∧ EachPass P levels s₁

private theorem eachPass_congr {P Q : Level C → State C → State C → Prop}
    (hPQ : ∀ level s s₁, level.apply top ignored s = some s₁ → (P level s s₁ ↔ Q level s s₁))
    (levels : List (Level C)) (s : State C) :
    EachPass top ignored P levels s ↔ EachPass top ignored Q levels s := by
  induction levels generalizing s with
  | nil => rfl
  | cons level levels ih =>
    refine exists_congr fun s₁ => and_congr_right fun happly => ?_
    rw [hPQ level s s₁ happly, ih s₁]

private theorem applyLevels_cons_eq_some_iff {levels : List (Level C)} :
    applyLevels top ignored (level :: levels) s = some s' ↔
      ∃ s₁, level.apply top ignored s = some s₁ ∧ applyLevels top ignored levels s₁ = some s' :=
  Option.bind_eq_some_iff

/-- Passes that commit what their levels are for add up. -/
theorem applyLevels_expected {levels : List (Level C)}
    (h : applyLevels top ignored levels s = some s')
    (hexact : EachPass top ignored Level.Exact levels s) :
    node s'.tree = levels.foldl (fun tree level => level.expected tree) (node s.tree) := by
  induction levels generalizing s with
  | nil => rw [← Option.some.inj h, List.foldl_nil]
  | cons level levels ih =>
    obtain ⟨s₁, happly, hpass, hrest⟩ := hexact
    obtain ⟨s₂, happly', hlevels⟩ := applyLevels_cons_eq_some_iff.mp h
    obtain rfl := Option.some.inj (happly.symm.trans happly')
    rw [ih hlevels hrest, List.foldl_cons, funext hpass]

end Levels

section Trees

private def openwrt : Path := ["openwrt".toList]

/-- A repository with a file that begins with a dot, a link and the file it leads to. -/
private def patched : State ℕ where
  files := [([], .dir), (openwrt, .dir), (openwrt ++ [".gitignore".toList], .file 1),
    (openwrt ++ ["Config.in".toList], .link ⟨false, ["rules.mk".toList]⟩),
    (openwrt ++ ["rules.mk".toList], .file 2)]
  tree := [([".gitignore".toList], .file 1),
    (["Config.in".toList], .link ⟨false, ["rules.mk".toList]⟩), (["rules.mk".toList], .file 2)]

/-- An overlay with a new file only. -/
private def newFile : Overlay ℕ where
  entries := [(["README".toList], .file 3)]
  proper := by decide
  ordered := List.pairwise_singleton _ _
  parents := by
    intro e he d hd hprefix hne
    obtain rfl := List.mem_singleton.mp he
    rcases List.prefix_cons_iff.mp hprefix with rfl | ⟨t, rfl, ht⟩
    · exact absurd rfl hd
    · rw [List.prefix_nil.mp ht] at hne
      exact absurd rfl hne

/-- An overlay with a new file, one that begins with a dot and one in the place of a
link. -/
private def threeFiles : Overlay ℕ where
  entries := [([".gitignore".toList], .file 4), (["Config.in".toList], .file 5),
    (["README".toList], .file 3)]
  proper := by decide
  ordered := by decide
  parents := by
    intro e he d hd hprefix hne
    obtain ⟨name, hname⟩ : ∃ name, e.1 = [name] := by
      simp only [List.mem_cons, List.not_mem_nil, or_false] at he
      rcases he with rfl | rfl | rfl <;> exact ⟨_, rfl⟩
    rw [hname] at hprefix hne
    rcases List.prefix_cons_iff.mp hprefix with rfl | ⟨t, rfl, ht⟩
    · exact absurd rfl hd
    · rw [List.prefix_nil.mp ht] at hne
      exact absurd rfl hne

private def threeFilesLevel : Level ℕ := ⟨none, some threeFiles⟩

private def emptyLevel : Level ℕ := ⟨none, none⟩

end Trees

end TurrisBuild.SourceOverlay
