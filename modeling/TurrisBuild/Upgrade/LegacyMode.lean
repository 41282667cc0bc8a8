import TurrisBuild.Upgrade.TwoFirmwares

/-!
# Upgrades without the try feature

Without the try bit both boot configurations are toggled for every section that is flashed, and
saved one after the other at the end. Which of them the boot loader takes is not known here. It
finds the whole old firmware or the whole new one in any case, wherever the power was cut, as long
as no partition is flashed for two sections.
-/

namespace TurrisBuild.Upgrade

variable {α : Type*}

/-- Both configurations boot the same. -/
def Boot.Agree (b : Boot) (bootInfo : Bool → BootConfig) : Prop :=
  ∀ name, b.Twofold name → ∀ which, (bootInfo which).primaryboot name = booted bootInfo name

/-- No partition that is kept twice is flashed for two sections. -/
def Boot.Once (b : Boot) (board : Board) (sections : List String) : Prop :=
  sections.Pairwise fun sec sec' => ∀ name, b.target board sec = some name →
    b.target board sec' = some name → ¬b.Twofold name

private theorem once_of_nodup {b : Boot} {board : Board} {sections : List String}
    (h : (sections.filterMap (b.target board)).Nodup) : b.Once board sections := by
  refine (List.pairwise_filterMap.mp h).imp fun hne name hsec hsec' _ => ?_
  exact hne name hsec name hsec' rfl

section Legacy

variable {b : Boot} {image : String → α} {bootInfo₀ : Bool → BootConfig} {st₀ : Storage α}
  {installed : String → Option String} {p : Progress α}

/-- What holds while an upgrade writes to the flash: all that was booted is left alone, and both
configurations boot what was installed and the rest of the old firmware. -/
structure Replacing (b : Boot) (image : String → α) (bootInfo₀ : Bool → BootConfig)
    (st₀ : Storage α) (installed : String → Option String) (p : Progress α) : Prop where
  primaryboot_eq : ∀ name, b.Twofold name → ∀ which,
    (p.bootInfo which).primaryboot name = (booted bootInfo₀ name ^^ (installed name).isSome)
  place_ne : ∀ w ∈ p.writes, ∀ name, b.Twofold name → ¬w.At name (booted bootInfo₀ name)
  bootconfig_ne : ∀ w ∈ p.writes, ∀ which, ¬w.AtBootconfig which
  image_eq : ∀ name, b.Twofold name → ∀ sec ∈ installed name,
    ((p.writes.foldl Storage.apply st₀).flash name !booted bootInfo₀ name).image =
      some (image sec)

private theorem replacing_start (hagree : b.Agree bootInfo₀) :
    Replacing b image bootInfo₀ st₀ (fun _ => none) ⟨bootInfo₀, []⟩ where
  primaryboot_eq name hname which := by
    rw [hagree name hname which]
    exact (Bool.xor_false _).symm
  place_ne _ hw := by cases hw
  bootconfig_ne _ hw := by cases hw
  image_eq _ _ _ hsec := by cases hsec

/-- Writes that do not matter. -/
theorem Replacing.write (h : Replacing b image bootInfo₀ st₀ installed p) {ws : List (Write α)}
    (hws : ∀ w ∈ ws, Harmless b bootInfo₀ w) :
    Replacing b image bootInfo₀ st₀ installed (p.write ws) where
  primaryboot_eq := h.primaryboot_eq
  place_ne w hw := by
    rcases List.mem_append.mp hw with hw | hw
    · exact h.place_ne w hw
    · exact (hws w hw).place_ne
  bootconfig_ne w hw := by
    rcases List.mem_append.mp hw with hw | hw
    · exact h.bootconfig_ne w hw
    · exact (hws w hw).bootconfig_ne
  image_eq name hname sec hsec := by
    rw [Progress.write, List.foldl_append, image_applyAll hws hname]
    exact h.image_eq name hname sec hsec

/-- Both configurations are toggled. -/
def Progress.toggled (p : Progress α) (name : String) : Progress α :=
  { p with
    bootInfo := fun which =>
      (p.bootInfo which).primarybootWrite name !(p.bootInfo which).primaryboot name }

private theorem toggle_eq_toggled (htry : b.trybit = false) (ofCurrent : Bool) (name : String) :
    b.toggle ofCurrent name p =
      if b.hasUpgradepartition name then
        (p.toggled name, b.dev.upgradepartition (p.bootInfo true) name)
      else (p, false) := by
  simp only [Boot.toggle, Boot.getAlternateBootconfig, Boot.getCurrentBootconfig, htry,
    Bool.false_eq_true, if_false, ite_self, List.foldl_cons, List.foldl_nil]
  split
  · refine Prod.ext ?_ ?_
    · refine congrArg₂ Progress.mk (funext fun which => ?_) rfl
      cases which with
      | false => rfl
      | true => rfl
    · rfl
  · rfl

/-- A partition that is not kept twice may be toggled. -/
theorem Replacing.toggled (h : Replacing b image bootInfo₀ st₀ installed p) {name : String}
    (hname : ¬b.Twofold name) : Replacing b image bootInfo₀ st₀ installed (p.toggled name) where
  primaryboot_eq name' hname' which := by
    have hne : name' ≠ name := by
      rintro rfl
      exact hname hname'
    simp only [Progress.toggled, BootConfig.primarybootWrite, Function.update_of_ne hne]
    exact h.primaryboot_eq name' hname' which
  place_ne := h.place_ne
  bootconfig_ne := h.bootconfig_ne
  image_eq := h.image_eq

/-- The place of a partition that is not booted gets its image, and both configurations boot it
from now on. -/
theorem Replacing.install (h : Replacing b image bootInfo₀ st₀ installed p) {name : String}
    (hfresh : b.Twofold name → installed name = none) (bin : String) :
    Replacing b image bootInfo₀ st₀ (Function.update installed name (some bin))
      ((p.toggled name).write (installing name (!booted bootInfo₀ name) (image bin))) where
  primaryboot_eq name' hname' which := by
    simp only [Progress.write, Progress.toggled, BootConfig.primarybootWrite]
    rcases eq_or_ne name' name with rfl | hne
    · rw [Function.update_self, Function.update_self, h.primaryboot_eq name' hname',
        hfresh hname']
      simp
    · rw [Function.update_of_ne hne, Function.update_of_ne hne]
      exact h.primaryboot_eq name' hname' which
  place_ne w hw name' hname' := by
    rcases List.mem_append.mp hw with hw | hw
    · exact h.place_ne w hw name' hname'
    · exact notAt_install hw
  bootconfig_ne w hw := by
    rcases List.mem_append.mp hw with hw | hw
    · exact h.bootconfig_ne w hw
    · exact fun which => notAtBootconfig_install hw which
  image_eq name' hname' sec hsec := by
    simp only [Progress.write, Progress.toggled, List.foldl_append]
    rcases eq_or_ne name' name with rfl | hne
    · rw [Function.update_self, Option.mem_some_iff] at hsec
      rw [flash_install_self, hsec]
    · rw [Function.update_of_ne hne] at hsec
      rw [flash_install_of_ne hne]
      exact h.image_eq name' hname' sec hsec

/-- The same installed partitions, written in another way. -/
theorem Replacing.congr (h : Replacing b image bootInfo₀ st₀ installed p)
    {installed' : String → Option String}
    (heq : ∀ name, b.Twofold name → installed' name = installed name) :
    Replacing b image bootInfo₀ st₀ installed' p where
  primaryboot_eq name hname := heq name hname ▸ h.primaryboot_eq name hname
  place_ne := h.place_ne
  bootconfig_ne := h.bootconfig_ne
  image_eq name hname := heq name hname ▸ h.image_eq name hname

/-- One partition is flashed. -/
theorem Replacing.flash (htry : b.trybit = false)
    (hcommitted : b.Committed bootInfo₀) (h : Replacing b image bootInfo₀ st₀ installed p)
    (ofCurrent : Bool) {name : String} (hfresh : b.Twofold name → installed name = none)
    (sec : String) :
    Replacing b image bootInfo₀ st₀ (Function.update installed name (some sec))
      ((b.toggle ofCurrent name p).1.write
        (b.doFlash image sec name (b.toggle ofCurrent name p).2)) := by
  rw [toggle_eq_toggled htry]
  by_cases htwofold : b.Twofold name
  · have hbc : (p.bootInfo true).primaryboot name = booted bootInfo₀ name := by
      rw [h.primaryboot_eq name htwofold, hfresh htwofold]
      exact Bool.xor_false _
    rw [if_pos htwofold.1,
      doFlash_of_twofold htwofold (place_upgradepartition hcommitted htwofold hbc)]
    exact h.install hfresh sec
  · have hcongr : ∀ name', b.Twofold name' →
        Function.update installed name (some sec) name' = installed name' := by
      intro name' hname'
      refine Function.update_of_ne ?_ _ _
      rintro rfl
      exact htwofold hname'
    refine Replacing.congr ?_ hcongr
    split
    · exact (h.toggled htwofold).write (harmless_doFlash htwofold sec _)
    · exact h.write (harmless_doFlash htwofold sec _)

/-- A volume is replaced. -/
theorem Replacing.volume (htry : b.trybit = false) (hcommitted : b.Committed bootInfo₀)
    (h : Replacing b image bootInfo₀ st₀ installed p) (sec vol : String) :
    Replacing b image bootInfo₀ st₀ installed
      (b.doFlashFailsafeUbiVolume image sec "rootfs" vol p) := by
  obtain ⟨alt, halt⟩ : ∃ alt, alt = if b.hasUpgradepartition "rootfs" then
      b.dev.upgradepartition (p.bootInfo true) "rootfs" else false := ⟨_, rfl⟩
  have heq : b.doFlashFailsafeUbiVolume image sec "rootfs" vol p =
      if (if alt then alternative "rootfs" else "rootfs") ∈ b.dev.mtd then
        p.write [.volume "rootfs" (b.place "rootfs" alt) vol (image sec)]
      else p := by
    simp only [Boot.doFlashFailsafeUbiVolume, Boot.getAlternateBootconfig, htry,
      Bool.false_eq_true, if_false, List.foldl_cons, List.foldl_nil, halt]
    split
    · rfl
    · rfl
  rw [heq]
  by_cases hmtd : (if alt then alternative "rootfs" else "rootfs") ∈ b.dev.mtd
  · rw [if_pos hmtd]
    refine h.write fun w hw => ?_
    obtain rfl := List.mem_singleton.mp hw
    exact harmless_volume hcommitted (fun hhas => halt.trans (if_pos hhas)) hmtd vol _
  · rw [if_neg hmtd]
    exact h

/-- What a section does to the partition that it is for. -/
theorem Replacing.section (htry : b.trybit = false) (hcommitted : b.Committed bootInfo₀)
    (h : Replacing b image bootInfo₀ st₀ installed p) {board : Board} {sec : String}
    (hfresh : ∀ name, b.target board sec = some name → b.Twofold name → installed name = none) :
    Replacing b image bootInfo₀ st₀
      (match b.target board sec with
        | some name => Function.update installed name (some sec)
        | none => installed)
      (b.flashSection image board p sec) := by
  rw [Boot.target] at hfresh
  rw [Boot.target, Boot.flashSection]
  cases hkind : b.kind board sec with
  | failsafe name =>
    rw [hkind] at hfresh
    exact h.flash htry hcommitted true (hfresh name rfl) sec
  | wifi =>
    rw [hkind] at hfresh
    exact (h.flash htry hcommitted true (hfresh _ rfl) sec).volume htry hcommitted sec "wifi_fw"
  | ubi =>
    rw [hkind] at hfresh
    exact h.flash htry hcommitted false (hfresh _ rfl) sec
  | sbl =>
    have hsbl : ¬b.Twofold "0:SBL1" := fun htwofold => htwofold.2 rfl
    refine h.write fun w hw => ?_
    rcases List.mem_append.mp hw with hw | hw
    · exact harmless_doFlash hsbl sec false w hw
    · exact harmless_doFlash hsbl sec true w hw
  | present name =>
    rw [hkind] at hfresh
    by_cases hpresent : b.present name false = true
    · simp only [if_pos hpresent] at hfresh ⊢
      exact h.flash htry hcommitted true (hfresh name rfl) sec
    · simp only [if_neg hpresent]
      exact h
  | ignored => exact h

/-- All sections. A partition that is still to be flashed was not flashed yet. -/
theorem replacing_sections (htry : b.trybit = false) (hcommitted : b.Committed bootInfo₀)
    (hagree : b.Agree bootInfo₀) {board : Board} {sections : List String}
    (hone : b.Once board sections) :
    Replacing b image bootInfo₀ st₀ (b.installed board sections)
      (sections.foldl (b.flashSection image board) ⟨bootInfo₀, []⟩) := by
  have hrun : ∀ {installed : String → Option String} {p : Progress α},
      Replacing b image bootInfo₀ st₀ installed p →
      (∀ sec ∈ sections, ∀ name, b.target board sec = some name → b.Twofold name →
        installed name = none) →
      Replacing b image bootInfo₀ st₀
        (sections.foldl (fun installed sec =>
          match b.target board sec with
          | some name => Function.update installed name (some sec)
          | none => installed) installed)
        (sections.foldl (b.flashSection image board) p) := by
    induction sections with
    | nil => exact fun h _ => h
    | cons sec sections ih =>
      intro installed p h hfresh
      obtain ⟨hsec, hone⟩ := List.pairwise_cons.mp hone
      obtain ⟨hfreshSec, hfresh⟩ := List.forall_mem_cons.mp hfresh
      refine ih hone (h.section htry hcommitted hfreshSec) fun sec' hsec' name hname htwofold => ?_
      beta_reduce
      cases htarget : b.target board sec with
      | none => exact hfresh sec' hsec' name hname htwofold
      | some name' =>
        have hne : name ≠ name' := by
          rintro rfl
          exact hsec sec' hsec' name htarget hname htwofold
        exact (Function.update_of_ne hne _ _).trans (hfresh sec' hsec' name hname htwofold)
  exact hrun (replacing_start hagree) fun _ _ _ _ _ => rfl

end Legacy

/-! ### The system -/

/-- What happens to a board: an upgrade is done, the power is cut after some of its writes, or the
board is restarted. The boot loader takes either of the configurations that are valid. -/
inductive LegacyEvent
  | upgrade (sections : List String)
  | cut (sections : List String) (writes : ℕ) (which : Bool)
  | restart (which : Bool)

section System

variable (dev : Device) (board : Board) (image : String → α)

def System.legacyBoot (s : System α) : Boot := ⟨dev, s.running, false⟩

def legacyUpgrade (s : System α) (sections : List String) : Progress α :=
  (s.legacyBoot dev).platformDoUpgrade image board sections ⟨s.bootInfo, []⟩

/-- A configuration that is not valid becomes a copy of the one that was booted. -/
def System.legacyRestart (s : System α) (which : Bool) : System α :=
  match readBootconfigs false s.storage.saved with
  | none => s
  | some bootInfo =>
    { storage := { s.storage with saved := fun which => some (bootInfo which) }
      bootInfo := bootInfo
      running := (bootInfo which).primaryboot }

def legacyStep (s : System α) : LegacyEvent → System α
  | .upgrade sections =>
    let p := legacyUpgrade dev board image s sections
    { s.write p.writes with bootInfo := p.bootInfo }
  | .cut sections writes which =>
    (s.write ((legacyUpgrade dev board image s sections).writes.take writes)).legacyRestart which
  | .restart which => s.legacyRestart which

/-- What one of the configurations boots. -/
def System.boots (s : System α) (which : Bool) (name : String) : Content α :=
  s.storage.flash name ((s.bootInfo which).primaryboot name)

/-- A configuration boots the old firmware. -/
def Old (s s' : System α) (which : Bool) : Prop :=
  ∀ name, dev.Twofold name → s'.boots which name = s.boots which name

/-- A configuration boots the new firmware: the images, and what was not replaced. -/
def New (s : System α) (sections : List String) (s' : System α) (which : Bool) : Prop :=
  ∀ name, dev.Twofold name → (s'.boots which name).image =
    (images dev board image s sections name).or (s.boots which name).image

/-- Both configurations boot the same places. -/
def System.Agree (s : System α) : Prop :=
  ∀ name, dev.Twofold name → ∀ which, (s.bootInfo which).primaryboot name = booted s.bootInfo name

/-- What a step does to that which is booted. -/
def LegacyMeans (s : System α) (e : LegacyEvent) : Prop :=
  let s' := legacyStep dev board image s e
  match e with
  | .upgrade sections => s'.Agree dev ∧ ∀ which, New dev board image s sections s' which
  | .cut sections _ _ =>
    s'.Agree dev ∧ (∀ which, Old dev s s' which) ∨
      s'.Agree dev ∧ (∀ which, New dev board image s sections s' which) ∨
        New dev board image s sections s' false ∧ Old dev s s' true
  | .restart _ => ∀ which, Old dev s s' which

/-- An upgrade begins with configurations that agree, partitions that are renamed at boot were
booted from where these say, and no partition is flashed twice. -/
structure Begins (s : System α) (sections : List String) : Prop where
  agree : s.Agree dev
  committed : (s.legacyBoot dev).Committed s.bootInfo
  once : (s.legacyBoot dev).Once board sections

def LegacyPermitted (s : System α) : LegacyEvent → Prop
  | .upgrade sections => Begins dev board s sections
  | .cut sections _ _ => Begins dev board s sections
  | .restart _ => True

/-- The configurations in memory are those on the flash. -/
def System.Saved (s : System α) : Prop := ∀ which, s.storage.saved which = some (s.bootInfo which)

end System

/-! ### The writes of an upgrade -/

section Steps

variable {dev : Device} {board : Board} {image : String → α} {s : System α}

/-- The writes of an upgrade: those of its sections, and then both configurations. -/
theorem legacyUpgrade_eq (image : String → α) {sections : List String}
    (hbegins : Begins dev board s sections) (hsysupgrade : board.sysupgrade = true) :
    ∃ p : Progress α, Replacing (s.legacyBoot dev) image s.bootInfo s.storage
        ((s.legacyBoot dev).installed board sections) p ∧
      legacyUpgrade dev board image s sections =
        p.write (saving false (p.bootInfo false) ++ saving true (p.bootInfo true)) := by
  have htry : (s.legacyBoot dev).trybit = false := rfl
  have hagree : (s.legacyBoot dev).Agree s.bootInfo :=
    fun name hname => hbegins.agree name (twofold_iff.mp hname)
  refine ⟨_, replacing_sections htry hbegins.committed hagree hbegins.once, ?_⟩
  simp only [legacyUpgrade, Boot.platformDoUpgrade, if_pos hsysupgrade,
    Boot.getAlternateBootconfig, htry, Bool.false_eq_true, if_false, List.foldl_cons,
    List.foldl_nil, Boot.doFlashBootconfig, Progress.write, List.append_assoc]
  rfl

private theorem legacyUpgrade_idle (sections : List String)
    (hsysupgrade : board.sysupgrade = false) :
    legacyUpgrade dev board image s sections = ⟨s.bootInfo, []⟩ := by
  simp only [legacyUpgrade, Boot.platformDoUpgrade, hsysupgrade, Bool.false_eq_true, if_false]

/-- What is saved when the writing of both configurations is cut off. -/
theorem saved_savings (st : Storage α) (bootInfo : Bool → BootConfig) (n : ℕ) :
    let st' := ((saving false (bootInfo false) ++ saving true (bootInfo true)).take n).foldl
      Storage.apply st
    st'.flash = st.flash ∧
      (n = 0 ∧ st'.saved = st.saved ∨
        1 ≤ n ∧ st'.saved false = none ∧ st'.saved true = st.saved true ∨
        1 ≤ n ∧ st'.saved false = some (bootInfo false) ∧
          (st'.saved true = st.saved true ∨ st'.saved true = none ∨
            st'.saved true = some (bootInfo true))) := by
  intro st'
  have hst' : st' = ((saving true (bootInfo true)).take (n - 2)).foldl Storage.apply
      (((saving false (bootInfo false)).take n).foldl Storage.apply st) := by
    rw [← List.foldl_append]
    exact congrArg (List.foldl Storage.apply st) List.take_append
  obtain ⟨hflash₀, hother₀, hsaved₀⟩ := saved_saving st false (bootInfo false) n
  obtain ⟨hflash, hother, hsaved⟩ := saved_saving
    (((saving false (bootInfo false)).take n).foldl Storage.apply st) true (bootInfo true) (n - 2)
  rw [← hst'] at hflash hother hsaved
  refine ⟨hflash.trans hflash₀, ?_⟩
  have hfalse : st'.saved false = _ := hother
  have htrue : (((saving false (bootInfo false)).take n).foldl Storage.apply st).saved true =
      st.saved true := hother₀
  rw [htrue] at hsaved
  rcases hsaved₀ with ⟨rfl, -⟩ | ⟨rfl, hnone⟩ | ⟨hn, hsome⟩
  · exact .inl ⟨rfl, rfl⟩
  · refine .inr (.inl ⟨Nat.le_refl 1, hfalse.trans hnone, ?_⟩)
    rcases hsaved with ⟨-, heq⟩ | ⟨hn, -⟩ | ⟨hn, -⟩
    · exact heq
    · omega
    · omega
  · refine .inr (.inr ⟨by omega, hfalse.trans hsome, ?_⟩)
    rcases hsaved with ⟨-, heq⟩ | ⟨-, heq⟩ | ⟨-, heq⟩
    · exact .inl heq
    · exact .inr (.inl heq)
    · exact .inr (.inr heq)

/-! ### Restarts -/

private theorem legacyRestart_eq (which : Bool) {bootInfo : Bool → BootConfig}
    (h : readBootconfigs false s.storage.saved = some bootInfo) :
    (s.legacyRestart which).Saved ∧ (s.legacyRestart which).bootInfo = bootInfo ∧
      (s.legacyRestart which).storage.flash = s.storage.flash := by
  rw [System.legacyRestart, h]
  exact ⟨fun _ => rfl, rfl, rfl⟩

/-- A configuration is repaired as a copy. -/
theorem readBootconfigs_copy {saved : Bool → Option BootConfig} (valid : Bool) {bc : BootConfig}
    (h : saved valid = some bc) (hnone : saved (!valid) = none) :
    readBootconfigs false saved = some fun _ => bc := by
  rw [readBootconfigs_of_one h hnone]
  refine congrArg some (funext fun which => ?_)
  rw [repaired]
  rcases eq_or_ne which valid with rfl | hne
  · exact Function.update_self _ _ _
  · exact Function.update_of_ne hne _ _

/-! ### What is booted -/

section Booted

variable {s' : System α} {which : Bool}

private theorem old_of_primaryboot (hagree : s.Agree dev)
    (hbc : ∀ name, dev.Twofold name →
      (s'.bootInfo which).primaryboot name = booted s.bootInfo name)
    (hflash : ∀ name, dev.Twofold name → s'.storage.flash name (booted s.bootInfo name) =
      s.storage.flash name (booted s.bootInfo name)) : Old dev s s' which := by
  intro name hname
  rw [System.boots, System.boots, hbc name hname, hflash name hname, hagree name hname]

private theorem new_of_primaryboot {sections : List String} {p : Progress α} (hagree : s.Agree dev)
    (hsysupgrade : board.sysupgrade = true)
    (hp : Replacing (s.legacyBoot dev) image s.bootInfo s.storage
      ((s.legacyBoot dev).installed board sections) p)
    (hbc : ∃ which', s'.bootInfo which = p.bootInfo which')
    (hflash : s'.storage.flash = (p.writes.foldl Storage.apply s.storage).flash) :
    New dev board image s sections s' which := by
  intro name hname
  obtain ⟨which', hbc⟩ := hbc
  have htwofold : (s.legacyBoot dev).Twofold name := twofold_iff.mpr hname
  have himages : images dev board image s sections name =
      ((s.legacyBoot dev).installed board sections name).map image := if_pos hsysupgrade
  rw [System.boots, System.boots, himages, hbc, hflash, hp.primaryboot_eq name htwofold,
    hagree name hname]
  cases hinstalled : (s.legacyBoot dev).installed board sections name with
  | none =>
    rw [Option.isSome_none, Bool.xor_false,
      flash_applyAll fun w hw => hp.place_ne w hw name htwofold]
    rfl
  | some sec =>
    rw [Option.isSome_some, Bool.xor_true]
    exact hp.image_eq name htwofold sec (Option.mem_def.mpr hinstalled)

end Booted

private theorem agree_of_primaryboot
    (h : ∀ name, dev.Twofold name →
      ∃ place, ∀ which, (s.bootInfo which).primaryboot name = place) : s.Agree dev := by
  intro name hname which
  obtain ⟨place, hplace⟩ := h name hname
  rw [booted, hplace, hplace]

/-! ### Steps -/

/-- A complete upgrade. -/
theorem step_legacyUpgrade (hsaved : s.Saved) {sections : List String}
    (hbegins : Begins dev board s sections) :
    (legacyStep dev board image s (.upgrade sections)).Saved ∧
      LegacyMeans dev board image s (.upgrade sections) := by
  cases hsysupgrade : board.sysupgrade with
  | false =>
    have hstep : legacyStep dev board image s (.upgrade sections) = s := by
      rw [legacyStep, legacyUpgrade_idle sections hsysupgrade]
      rfl
    rw [LegacyMeans, hstep]
    refine ⟨hsaved, hbegins.agree, fun which name _ => ?_⟩
    rw [images, hsysupgrade]
    rfl
  | true =>
    obtain ⟨p, hp, heq⟩ := legacyUpgrade_eq image hbegins hsysupgrade
    obtain ⟨t, ht⟩ : ∃ t, t = legacyStep dev board image s (.upgrade sections) := ⟨_, rfl⟩
    have hinfo : t.bootInfo = p.bootInfo := by
      rw [ht, legacyStep, heq]
      rfl
    have hstorage : t.storage = (saving false (p.bootInfo false) ++
        saving true (p.bootInfo true)).foldl Storage.apply
          (p.writes.foldl Storage.apply s.storage) := by
      rw [ht, legacyStep, heq, ← List.foldl_append]
      rfl
    rw [LegacyMeans, ← ht]
    refine ⟨fun which => ?_, ?_, fun which => ?_⟩
    · rw [hstorage, hinfo]
      cases which with
      | false => rfl
      | true => rfl
    · refine agree_of_primaryboot fun name hname => ?_
      rw [hinfo]
      exact ⟨_, hp.primaryboot_eq name (twofold_iff.mpr hname)⟩
    · refine new_of_primaryboot hbegins.agree hsysupgrade hp ⟨which, congrFun hinfo which⟩ ?_
      rw [hstorage]
      rfl

/-- What is on the flash after a part of an upgrade. -/
theorem readBootconfigs_cut (hsaved : s.Saved) {installed : String → Option String}
    {p : Progress α} (hp : Replacing (s.legacyBoot dev) image s.bootInfo s.storage installed p)
    (n : ℕ) :
    let saving := saving false (p.bootInfo false) ++ saving true (p.bootInfo true)
    let st := ((p.write saving).writes.take n).foldl Storage.apply s.storage
    (∀ name, dev.Twofold name → st.flash name (booted s.bootInfo name) =
        s.storage.flash name (booted s.bootInfo name)) ∧
      ∃ bootInfo, readBootconfigs false st.saved = some bootInfo ∧
        ((∀ which, ∃ which', bootInfo which = s.bootInfo which') ∨
          st.flash = (p.writes.foldl Storage.apply s.storage).flash ∧
            bootInfo false = p.bootInfo false ∧
              (bootInfo true = s.bootInfo true ∨ ∃ which', bootInfo true = p.bootInfo which')) := by
  intro saving st
  have hst : st = (saving.take (n - p.writes.length)).foldl Storage.apply
      ((p.writes.take n).foldl Storage.apply s.storage) := by
    rw [← List.foldl_append]
    exact congrArg (List.foldl Storage.apply s.storage) List.take_append
  have hsections : ((p.writes.take n).foldl Storage.apply s.storage).saved =
      fun which => some (s.bootInfo which) := by
    funext which
    rw [saved_applyAll fun w hw => hp.bootconfig_ne w (List.mem_of_mem_take hw) which]
    exact hsaved which
  obtain ⟨hflash, hcases⟩ := saved_savings ((p.writes.take n).foldl Storage.apply s.storage)
    p.bootInfo (n - p.writes.length)
  rw [← hst] at hflash hcases
  rw [hsections] at hcases
  have hall : 1 ≤ n - p.writes.length →
      st.flash = (p.writes.foldl Storage.apply s.storage).flash := by
    intro hn
    rw [hflash, List.take_of_length_le (by omega)]
  constructor
  · intro name hname
    rw [hflash]
    exact flash_applyAll fun w hw =>
      hp.place_ne w (List.mem_of_mem_take hw) name (twofold_iff.mpr hname)
  rcases hcases with ⟨-, hboth⟩ | ⟨-, hnone, htrue⟩ | ⟨hn, hfalse, htrue | htrue | htrue⟩
  · exact ⟨_, readBootconfigs_of_both (congrFun hboth), .inl fun which => ⟨which, rfl⟩⟩
  · exact ⟨_, readBootconfigs_copy true htrue hnone, .inl fun which => ⟨true, rfl⟩⟩
  · refine ⟨fun which => if which then s.bootInfo true else p.bootInfo false,
      readBootconfigs_of_both (Bool.rec hfalse htrue), .inr ⟨hall hn, rfl, .inl rfl⟩⟩
  · exact ⟨_, readBootconfigs_copy false hfalse htrue,
      .inr ⟨hall hn, rfl, .inr ⟨false, rfl⟩⟩⟩
  · exact ⟨_, readBootconfigs_of_both (Bool.rec hfalse htrue),
      .inr ⟨hall hn, rfl, .inr ⟨true, rfl⟩⟩⟩

/-- A restart with configurations of before an upgrade. -/
theorem restart_old (hagree : s.Agree dev) {writes : List (Write α)} (which : Bool)
    (hflash : ∀ name, dev.Twofold name →
      (writes.foldl Storage.apply s.storage).flash name (booted s.bootInfo name) =
        s.storage.flash name (booted s.bootInfo name)) {bootInfo : Bool → BootConfig}
    (hread : readBootconfigs false (writes.foldl Storage.apply s.storage).saved = some bootInfo)
    (hbootInfo : ∀ which, ∃ which', bootInfo which = s.bootInfo which') :
    ((s.write writes).legacyRestart which).Agree dev ∧
      ∀ which', Old dev s ((s.write writes).legacyRestart which) which' := by
  have hread' : readBootconfigs false (s.write writes).storage.saved = some bootInfo := hread
  obtain ⟨-, hinfo, hsame⟩ := legacyRestart_eq which hread'
  have hbc : ∀ which' name, dev.Twofold name →
      (((s.write writes).legacyRestart which).bootInfo which').primaryboot name =
        booted s.bootInfo name := by
    intro which' name hname
    obtain ⟨which'', heq⟩ := hbootInfo which'
    rw [hinfo, heq]
    exact hagree name hname which''
  refine ⟨agree_of_primaryboot fun name hname => ⟨_, fun which' => hbc which' name hname⟩,
    fun which' => old_of_primaryboot hagree (hbc which') fun name hname => ?_⟩
  rw [hsame]
  exact hflash name hname

/-- The power is cut during an upgrade. -/
theorem step_legacyCut (hsaved : s.Saved) {sections : List String}
    (hbegins : Begins dev board s sections) (n : ℕ) (which : Bool) :
    (legacyStep dev board image s (.cut sections n which)).Saved ∧
      LegacyMeans dev board image s (.cut sections n which) := by
  rw [LegacyMeans, legacyStep]
  cases hsysupgrade : board.sysupgrade with
  | false =>
    rw [legacyUpgrade_idle sections hsysupgrade, List.take_nil]
    have hread : readBootconfigs false s.storage.saved = some s.bootInfo :=
      readBootconfigs_of_both hsaved
    exact ⟨(legacyRestart_eq which hread).1,
      .inl (restart_old hbegins.agree which (fun _ _ => rfl) hread fun which' => ⟨which', rfl⟩)⟩
  | true =>
    obtain ⟨p, hp, heq⟩ := legacyUpgrade_eq image hbegins hsysupgrade
    rw [heq]
    obtain ⟨hflash, bootInfo, hread, hcases⟩ := readBootconfigs_cut hsaved hp n
    obtain ⟨writes, hwrites⟩ : ∃ writes, writes = (p.write (saving false (p.bootInfo false) ++
        saving true (p.bootInfo true))).writes.take n := ⟨_, rfl⟩
    simp only [← hwrites] at hflash hread hcases ⊢
    have hread' : readBootconfigs false (s.write writes).storage.saved = some bootInfo := hread
    obtain ⟨hsaved', hinfo, hsame⟩ := legacyRestart_eq which hread'
    refine ⟨hsaved', ?_⟩
    rcases hcases with hbefore | ⟨hall, hfalse, htrue⟩
    · exact .inl (restart_old hbegins.agree which hflash hread hbefore)
    have hnew : ∀ which', (∃ which'', bootInfo which' = p.bootInfo which'') →
        New dev board image s sections ((s.write writes).legacyRestart which) which' := by
      intro which' hnew
      refine new_of_primaryboot hbegins.agree hsysupgrade hp ?_ (hsame.trans hall)
      rw [hinfo]
      exact hnew
    rcases htrue with htrue | htrue
    · refine .inr (.inr ⟨hnew false ⟨false, hfalse⟩, old_of_primaryboot hbegins.agree ?_ ?_⟩)
      · intro name hname
        rw [hinfo, htrue]
        exact hbegins.agree name hname true
      · intro name hname
        rw [hsame]
        exact hflash name hname
    · have hafter : ∀ which', ∃ which'', bootInfo which' = p.bootInfo which'' :=
        Bool.rec ⟨false, hfalse⟩ htrue
      have hagree : ∀ name, dev.Twofold name → ∀ which', (bootInfo which').primaryboot name =
          (booted s.bootInfo name ^^
            ((s.legacyBoot dev).installed board sections name).isSome) := by
        intro name hname which'
        obtain ⟨which'', heq⟩ := hafter which'
        rw [heq]
        exact hp.primaryboot_eq name (twofold_iff.mpr hname) which''
      refine .inr (.inl ⟨agree_of_primaryboot ?_, fun which' => hnew which' (hafter which')⟩)
      rw [hinfo]
      exact fun name hname => ⟨_, hagree name hname⟩

/-- **One step without the try feature.** -/
theorem legacyStep_means {e : LegacyEvent} (hsaved : s.Saved)
    (hpermitted : LegacyPermitted dev board s e) :
    (legacyStep dev board image s e).Saved ∧ LegacyMeans dev board image s e := by
  cases e with
  | upgrade sections => exact step_legacyUpgrade hsaved hpermitted
  | cut sections n which => exact step_legacyCut hsaved hpermitted n which
  | restart which =>
    obtain ⟨hsaved', hinfo, hsame⟩ := legacyRestart_eq which (readBootconfigs_of_both hsaved)
    refine ⟨hsaved', fun which' name _ => ?_⟩
    rw [System.boots, System.boots, legacyStep, hinfo, hsame]

end Steps

end TurrisBuild.Upgrade
