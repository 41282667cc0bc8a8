import TurrisBuild.Lib.Runs
import TurrisBuild.Upgrade.Platform

/-!
# Two firmwares

With the try feature a board has two firmwares, the one that the newer boot configuration boots
and a spare one. An upgrade installs partitions of the spare firmware and never touches the other
one, wherever the power is cut, and raising the age exchanges the two. This is so as long as
partitions that are renamed at boot are not flashed while the spare firmware is tried.
-/

namespace TurrisBuild.Upgrade

variable {α : Type*}

/-! ### Storage -/

/-- The flash, with the boot configurations. A configuration is missing while its checksum is
wrong. -/
structure Storage (α : Type*) where
  flash : String → Bool → Content α
  saved : Bool → Option BootConfig

def Storage.set (st : Storage α) (name : String) (place : Bool) (c : Content α) : Storage α :=
  { st with flash := Function.update st.flash name (Function.update (st.flash name) place c) }

def Storage.apply (st : Storage α) : Write α → Storage α
  | .erase name place => st.set name place ⟨none, []⟩
  | .program name place image => st.set name place ⟨some image, []⟩
  | .volume name place vol image =>
    st.set name place
      { st.flash name place with volumes := (vol, image) :: (st.flash name place).volumes }
  | .eraseBootconfig which => { st with saved := Function.update st.saved which none }
  | .bootconfig which bc => { st with saved := Function.update st.saved which (some bc) }

/-- What a write may change. -/
def Write.At (name : String) (place : Bool) : Write α → Prop
  | .erase name' place' => name' = name ∧ place' = place
  | .program name' place' _ => name' = name ∧ place' = place
  | .volume name' place' _ _ => name' = name ∧ place' = place
  | _ => False

@[inherit_doc Write.At]
def Write.AtBootconfig (which : Bool) : Write α → Prop
  | .eraseBootconfig which' => which' = which
  | .bootconfig which' _ => which' = which
  | _ => False

section Storage

variable {st : Storage α} {name name' : String} {place place' : Bool} {c : Content α}

private theorem flash_set_self : (st.set name place c).flash name place = c := by
  simp only [Storage.set, Function.update_self]

private theorem flash_set_of_ne (h : ¬(name' = name ∧ place' = place)) :
    (st.set name' place' c).flash name place = st.flash name place := by
  simp only [Storage.set]
  rcases eq_or_ne name' name with rfl | hname
  · rw [Function.update_self, Function.update_of_ne fun heq => h ⟨rfl, heq.symm⟩]
  · rw [Function.update_of_ne hname.symm]

private theorem flash_apply {w : Write α} (h : ¬w.At name place) :
    (st.apply w).flash name place = st.flash name place := by
  cases w with
  | erase name' place' => exact flash_set_of_ne h
  | program name' place' image => exact flash_set_of_ne h
  | volume name' place' vol image => exact flash_set_of_ne h
  | eraseBootconfig which => rfl
  | bootconfig which bc => rfl

private theorem saved_apply {w : Write α} {which : Bool} (h : ¬w.AtBootconfig which) :
    (st.apply w).saved which = st.saved which := by
  cases w with
  | erase name place => rfl
  | program name place image => rfl
  | volume name place vol image => rfl
  | eraseBootconfig which' => exact Function.update_of_ne (fun heq => h heq.symm) _ _
  | bootconfig which' bc => exact Function.update_of_ne (fun heq => h heq.symm) _ _

/-- Writes to other places leave a partition as it is. -/
theorem flash_applyAll {ws : List (Write α)} (h : ∀ w ∈ ws, ¬w.At name place) :
    (ws.foldl Storage.apply st).flash name place = st.flash name place :=
  List.foldlRecOn (motive := fun st' : Storage α => st'.flash name place = st.flash name place)
    ws Storage.apply rfl fun _ hst' w hw => (flash_apply (h w hw)).trans hst'

/-- Writes to other places leave a configuration as it is. -/
theorem saved_applyAll {ws : List (Write α)} {which : Bool}
    (h : ∀ w ∈ ws, ¬w.AtBootconfig which) :
    (ws.foldl Storage.apply st).saved which = st.saved which :=
  List.foldlRecOn (motive := fun st' : Storage α => st'.saved which = st.saved which)
    ws Storage.apply rfl fun _ hst' w hw => (saved_apply (h w hw)).trans hst'

end Storage

/-! ### The configuration in force -/

/-- The newer configuration. Of two that are equally old it is the second one. -/
def current (bootInfo : Bool → BootConfig) : Bool :=
  (bootInfo false).ageShow ≤ (bootInfo true).ageShow

section Current

variable {b : Boot} (htry : b.trybit = true) (bootInfo : Bool → BootConfig)

/-- With the try feature the other configuration is written. -/
theorem getAlternateBootconfig_eq (htry : b.trybit = true) :
    b.getAlternateBootconfig bootInfo = [!current bootInfo] := by
  rw [Boot.getAlternateBootconfig, if_pos htry, current]
  split
  · next h => rw [decide_eq_true h, Bool.not_true]
  · next h => rw [decide_eq_false h, Bool.not_false]

private theorem getCurrentBootconfig_eq (htry : b.trybit = true) (bcname : Bool) :
    b.getCurrentBootconfig bootInfo bcname = current bootInfo := by
  rw [Boot.getCurrentBootconfig, if_pos htry, current]
  split
  · next h => rw [decide_eq_true h]
  · next h => rw [decide_eq_false h]

/-- Only the ages matter. -/
theorem current_congr {bootInfo bootInfo' : Bool → BootConfig}
    (h : ∀ which, (bootInfo' which).age = (bootInfo which).age) :
    current bootInfo' = current bootInfo := by
  rw [current, current, BootConfig.ageShow, BootConfig.ageShow, h, h]
  rfl

end Current

/-! ### Flashing -/

/-- A partition that is kept twice. The first boot loader has its alternative written with it. -/
def Boot.Twofold (b : Boot) (name : String) : Prop :=
  b.hasUpgradepartition name = true ∧ name ≠ "0:SBL1"

/-- What a boot configuration boots that does not rename its partitions is not fixed by it; the
others were booted from where the configuration in force says. -/
def Boot.Committed (b : Boot) (bootInfo : Bool → BootConfig) : Prop :=
  ∀ name, b.Twofold name → b.dev.isEmmcPart name = false →
    b.running name = (bootInfo (current bootInfo)).primaryboot name

/-- The section for a partition that is flashed. -/
def Boot.target (b : Boot) (board : Board) (sec : String) : Option String :=
  match b.kind board sec with
  | .failsafe name => some name
  | .wifi => some "0:WIFIFW"
  | .ubi => some "rootfs"
  | .sbl => none
  | .present name => if b.present name false then some name else none
  | .ignored => none

/-- The last section for each of the partitions. -/
def Boot.installed (b : Boot) (board : Board) (sections : List String) : String → Option String :=
  sections.foldl
    (fun installed sec =>
      match b.target board sec with
      | some name => Function.update installed name (some sec)
      | none => installed)
    fun _ => none

section Flash

variable {b : Boot} {image : String → α} {bootInfo₀ : Bool → BootConfig}

/-- The place of a partition that the configuration in force boots. -/
def booted (bootInfo : Bool → BootConfig) (name : String) : Bool :=
  (bootInfo (current bootInfo)).primaryboot name

/-- What the other configuration would boot. -/
def spare (bootInfo : Bool → BootConfig) (name : String) : Bool :=
  (bootInfo (!current bootInfo)).primaryboot name

/-- The place that is written is the one that is not booted. -/
theorem place_upgradepartition (hcommitted : b.Committed bootInfo₀) {name : String}
    (htwofold : b.Twofold name) {bc : BootConfig}
    (hbc : bc.primaryboot name = booted bootInfo₀ name) :
    b.place name (b.dev.upgradepartition bc name) = !booted bootInfo₀ name := by
  rw [Boot.place, Device.upgradepartition, hbc]
  cases hemmc : b.dev.isEmmcPart name with
  | true => simp
  | false =>
    rw [hcommitted name htwofold hemmc, booted]
    simp

private theorem place_of_not_emmc (hcommitted : b.Committed bootInfo₀) {name : String}
    (htwofold : b.Twofold name) (hemmc : b.dev.isEmmcPart name = false) (bc : BootConfig) :
    b.place name (b.dev.upgradepartition bc name) = !booted bootInfo₀ name := by
  rw [Boot.place, Device.upgradepartition, hemmc, hcommitted name htwofold hemmc, booted]
  simp

/-- A partition with an alternative is there under both names. -/
theorem present_of_twofold {name : String} (htwofold : b.Twofold name) (alt : Bool) :
    b.present name alt = true := by
  have hmem : name ∈ b.dev.partnameDirs := of_decide_eq_true htwofold.1
  obtain ⟨hnames, hdir⟩ := List.mem_filter.mp hmem
  rw [Boot.present]
  cases alt with
  | false => exact decide_eq_true (b.dev.names_present name hnames)
  | true =>
    have halt := of_decide_eq_true (Bool.and_eq_true_iff.mp hdir).2
    exact decide_eq_true halt.symm

/-- A write that does not matter for the images that are kept twice, nor for the
configurations. -/
structure Harmless (b : Boot) (bootInfo₀ : Bool → BootConfig) (w : Write α) : Prop where
  place_ne : ∀ name, b.Twofold name → ¬w.At name (booted bootInfo₀ name)
  image_eq : ∀ name, b.Twofold name → ∀ (st : Storage α) place,
    ((st.apply w).flash name place).image = (st.flash name place).image
  bootconfig_ne : ∀ which, ¬w.AtBootconfig which

/-- Harmless writes leave the images as they are. -/
theorem image_applyAll {ws : List (Write α)} (hws : ∀ w ∈ ws, Harmless b bootInfo₀ w)
    {name : String} (hname : b.Twofold name) {st : Storage α} {place : Bool} :
    ((ws.foldl Storage.apply st).flash name place).image = (st.flash name place).image :=
  List.foldlRecOn
    (motive := fun st' : Storage α => (st'.flash name place).image = (st.flash name place).image)
    ws Storage.apply rfl fun st' hst' w hw => ((hws w hw).image_eq name hname st' place).trans hst'

/-- What holds while an upgrade writes to the flash: the configuration in force and all that it
boots are left alone, and the other one boots what was installed. -/
structure Upgrading (b : Boot) (image : String → α) (bootInfo₀ : Bool → BootConfig)
    (st₀ : Storage α) (installed : String → Option String) (p : Progress α) : Prop where
  age_eq : ∀ which, (p.bootInfo which).age = (bootInfo₀ which).age
  current_eq : p.bootInfo (current bootInfo₀) = bootInfo₀ (current bootInfo₀)
  place_ne : ∀ w ∈ p.writes, ∀ name, b.Twofold name → ¬w.At name (booted bootInfo₀ name)
  bootconfig_ne : ∀ w ∈ p.writes, ∀ which, ¬w.AtBootconfig which
  spare_eq : ∀ name, b.Twofold name →
    ((p.writes.foldl Storage.apply st₀).flash name
        ((p.bootInfo (!current bootInfo₀)).primaryboot name)).image =
      match installed name with
      | some sec => some (image sec)
      | none => (st₀.flash name (spare bootInfo₀ name)).image

variable {st₀ : Storage α} {installed : String → Option String} {p : Progress α}

private theorem upgrading_start :
    Upgrading b image bootInfo₀ st₀ (fun _ => none) ⟨bootInfo₀, []⟩ where
  age_eq _ := rfl
  current_eq := rfl
  place_ne _ hw := by cases hw
  bootconfig_ne _ hw := by cases hw
  spare_eq _ _ := rfl

/-- The configuration in force stays in force. -/
theorem Upgrading.current (h : Upgrading b image bootInfo₀ st₀ installed p) :
    Upgrade.current p.bootInfo = Upgrade.current bootInfo₀ :=
  current_congr h.age_eq

/-- Writes that do not matter. -/
theorem Upgrading.write (h : Upgrading b image bootInfo₀ st₀ installed p) {ws : List (Write α)}
    (hws : ∀ w ∈ ws, Harmless b bootInfo₀ w) :
    Upgrading b image bootInfo₀ st₀ installed (p.write ws) where
  age_eq := h.age_eq
  current_eq := h.current_eq
  place_ne w hw := by
    rcases List.mem_append.mp hw with hw | hw
    · exact h.place_ne w hw
    · exact (hws w hw).place_ne
  bootconfig_ne w hw := by
    rcases List.mem_append.mp hw with hw | hw
    · exact h.bootconfig_ne w hw
    · exact (hws w hw).bootconfig_ne
  spare_eq name hname := by
    rw [Progress.write, List.foldl_append, image_applyAll hws hname]
    exact h.spare_eq name hname

/-- The other configuration may change what it boots of a partition that is not kept twice. -/
theorem Upgrading.toggle (h : Upgrading b image bootInfo₀ st₀ installed p) {name : String}
    (hname : ¬b.Twofold name) (val : Bool) :
    Upgrading b image bootInfo₀ st₀ installed (p.update (!Upgrade.current bootInfo₀)
      ((p.bootInfo (!Upgrade.current bootInfo₀)).primarybootWrite name val)) where
  age_eq which := by
    simp only [Progress.update]
    rcases eq_or_ne which (!Upgrade.current bootInfo₀) with rfl | hne
    · rw [Function.update_self]
      exact h.age_eq _
    · rw [Function.update_of_ne hne]
      exact h.age_eq which
  current_eq := by
    simp only [Progress.update]
    rw [Function.update_of_ne (Bool.eq_not_self _).mp]
    exact h.current_eq
  place_ne := h.place_ne
  bootconfig_ne := h.bootconfig_ne
  spare_eq name' hname' := by
    refine Eq.trans ?_ (h.spare_eq name' hname')
    have hne : name' ≠ name := by
      rintro rfl
      exact hname hname'
    simp only [Progress.update, Function.update_self, BootConfig.primarybootWrite]
    rw [Function.update_of_ne hne]

/-! ### One image -/

section Install

variable {name bin : String} {place : Bool} {st : Storage α}

/-- A partition is erased and written. -/
def installing (name : String) (place : Bool) (data : α) : List (Write α) :=
  [.erase name place, .program name place data]

/-- The image that is installed. -/
theorem flash_install_self {data : α} :
    (((installing name place data).foldl Storage.apply st).flash name place).image = some data := by
  simp only [installing, List.foldl_cons, List.foldl_nil, Storage.apply, flash_set_self]

/-- Other partitions are as before. -/
theorem flash_install_of_ne {name' : String} (hne : name' ≠ name) {place' : Bool} {data : α} :
    ((installing name place data).foldl Storage.apply st).flash name' place' =
      st.flash name' place' := by
  have hset : ∀ (st : Storage α) c,
      (st.set name place c).flash name' place' = st.flash name' place' :=
    fun st c => flash_set_of_ne fun heq => hne heq.1.symm
  simp only [installing, List.foldl_cons, List.foldl_nil, Storage.apply, hset]

/-- What is not booted is written. -/
theorem notAt_install {data : α} {w : Write α}
    (hw : w ∈ installing name (!booted bootInfo₀ name) data) {name' : String} :
    ¬w.At name' (booted bootInfo₀ name') := by
  have hplace : ¬(name = name' ∧ (!booted bootInfo₀ name) = booted bootInfo₀ name') := by
    rintro ⟨rfl, heq⟩
    exact (Bool.eq_not_self _).mp heq.symm
  simp only [installing, List.mem_cons, List.not_mem_nil, or_false] at hw
  rcases hw with rfl | rfl
  · exact hplace
  · exact hplace

/-- An installation writes no configuration. -/
theorem notAtBootconfig_install {data : α} {w : Write α} (hw : w ∈ installing name place data)
    (which : Bool) : ¬w.AtBootconfig which := by
  simp only [installing, List.mem_cons, List.not_mem_nil, or_false] at hw
  rcases hw with rfl | rfl
  · exact id
  · exact id

end Install

/-- The place of a partition that is not booted gets its image, and will be booted by the other
configuration. -/
theorem Upgrading.install (h : Upgrading b image bootInfo₀ st₀ installed p) (name bin : String) :
    Upgrading b image bootInfo₀ st₀ (Function.update installed name (some bin))
      ((p.update (!Upgrade.current bootInfo₀)
        ((p.bootInfo (!Upgrade.current bootInfo₀)).primarybootWrite name
          !booted bootInfo₀ name)).write
        (installing name (!booted bootInfo₀ name) (image bin))) where
  age_eq which := by
    simp only [Progress.write, Progress.update]
    rcases eq_or_ne which (!Upgrade.current bootInfo₀) with rfl | hne
    · rw [Function.update_self]
      exact h.age_eq _
    · rw [Function.update_of_ne hne]
      exact h.age_eq which
  current_eq := by
    simp only [Progress.write, Progress.update]
    rw [Function.update_of_ne (Bool.eq_not_self _).mp]
    exact h.current_eq
  place_ne w hw name' hname' := by
    rcases List.mem_append.mp hw with hw | hw
    · exact h.place_ne w hw name' hname'
    · exact notAt_install hw
  bootconfig_ne w hw := by
    rcases List.mem_append.mp hw with hw | hw
    · exact h.bootconfig_ne w hw
    · exact fun which => notAtBootconfig_install hw which
  spare_eq name' hname' := by
    simp only [Progress.write, Progress.update, Function.update_self, BootConfig.primarybootWrite,
      List.foldl_append]
    rcases eq_or_ne name' name with rfl | hne
    · rw [Function.update_self, Function.update_self, flash_install_self]
    · rw [Function.update_of_ne hne, Function.update_of_ne hne, flash_install_of_ne hne]
      exact h.spare_eq name' hname'

/-- The same installed partitions, written in another way. -/
theorem Upgrading.congr (h : Upgrading b image bootInfo₀ st₀ installed p)
    {installed' : String → Option String}
    (heq : ∀ name, b.Twofold name → installed' name = installed name) :
    Upgrading b image bootInfo₀ st₀ installed' p :=
  ⟨h.age_eq, h.current_eq, h.place_ne, h.bootconfig_ne, fun name hname => by
    rw [heq name hname]
    exact h.spare_eq name hname⟩

/-! ### Sections -/

private theorem toggle_eq (htry : b.trybit = true)
    (h : Upgrading b image bootInfo₀ st₀ installed p) (ofCurrent : Bool) (name : String) :
    b.toggle ofCurrent name p =
      if b.hasUpgradepartition name then
        (p.update (!Upgrade.current bootInfo₀)
            ((p.bootInfo (!Upgrade.current bootInfo₀)).primarybootWrite name
              !booted bootInfo₀ name),
          b.dev.upgradepartition
            (if ofCurrent then bootInfo₀ (Upgrade.current bootInfo₀)
              else p.bootInfo (!Upgrade.current bootInfo₀)) name)
      else (p, false) := by
  rw [Boot.toggle, getAlternateBootconfig_eq _ htry, h.current, List.foldl_cons, List.foldl_nil]
  simp only [getCurrentBootconfig_eq _ htry, h.current]
  split
  · have hconfig : p.bootInfo (if ofCurrent = true then Upgrade.current bootInfo₀
        else !Upgrade.current bootInfo₀) =
          if ofCurrent = true then bootInfo₀ (Upgrade.current bootInfo₀)
          else p.bootInfo (!Upgrade.current bootInfo₀) := by
      split
      · exact h.current_eq
      · rfl
    rw [hconfig, h.current_eq]
    rfl
  · rfl

/-- A partition that is there twice is installed at its place. -/
theorem doFlash_of_twofold {name : String} (htwofold : b.Twofold name) {alt place : Bool}
    (hplace : b.place name alt = place) (bin : String) :
    b.doFlash image bin name alt = installing name place (image bin) := by
  rw [Boot.doFlash, if_pos (present_of_twofold htwofold alt), hplace, installing]

/-- Other partitions do not matter. -/
theorem harmless_doFlash {name : String} (hname : ¬b.Twofold name) (bin : String) (alt : Bool) :
    ∀ w ∈ b.doFlash image bin name alt, Harmless b bootInfo₀ w := by
  intro w hw
  have hne : ∀ name' (place place' : Bool), b.Twofold name' →
      ¬(name = name' ∧ place = place') := by
    rintro name' place place' hname' ⟨rfl, -⟩
    exact hname hname'
  rw [Boot.doFlash] at hw
  split at hw
  · simp only [List.mem_cons, List.not_mem_nil, or_false] at hw
    rcases hw with rfl | rfl
    · exact ⟨fun name' hname' => hne _ _ _ hname', fun name' hname' st place =>
        congrArg Content.image (flash_apply (hne _ _ _ hname')), fun _ => id⟩
    · exact ⟨fun name' hname' => hne _ _ _ hname', fun name' hname' st place =>
        congrArg Content.image (flash_apply (hne _ _ _ hname')), fun _ => id⟩
  · cases hw

/-- One partition is flashed, and the other configuration boots it when it is kept twice. -/
theorem Upgrading.flash (htry : b.trybit = true)
    (h : Upgrading b image bootInfo₀ st₀ installed p) (ofCurrent : Bool) {name : String}
    (hplace : b.Twofold name → ∀ bc,
      bc = bootInfo₀ (Upgrade.current bootInfo₀) ∨ ofCurrent = false →
      b.place name (b.dev.upgradepartition bc name) = !booted bootInfo₀ name) (sec : String) :
    Upgrading b image bootInfo₀ st₀ (Function.update installed name (some sec))
      ((b.toggle ofCurrent name p).1.write
        (b.doFlash image sec name (b.toggle ofCurrent name p).2)) := by
  rw [toggle_eq htry h]
  by_cases htwofold : b.Twofold name
  · have hbc : ∀ bc bc' : BootConfig, bc = bootInfo₀ (Upgrade.current bootInfo₀) →
        b.place name (b.dev.upgradepartition (if ofCurrent = true then bc else bc') name) =
          !booted bootInfo₀ name := by
      intro bc bc' heq
      cases ofCurrent with
      | true => exact hplace htwofold bc (.inl heq)
      | false => exact hplace htwofold bc' (.inr rfl)
    rw [if_pos htwofold.1, doFlash_of_twofold htwofold (hbc _ _ rfl)]
    exact h.install name sec
  · have hcongr : ∀ name', b.Twofold name' →
        Function.update installed name (some sec) name' = installed name' := by
      intro name' hname'
      refine Function.update_of_ne ?_ _ _
      rintro rfl
      exact htwofold hname'
    refine Upgrading.congr ?_ hcongr
    split
    · exact (h.toggle htwofold _).write (harmless_doFlash htwofold sec _)
    · exact h.write (harmless_doFlash htwofold sec _)

/-- A partition of the NAND is renamed at boot. -/
theorem rootfs_not_emmc (h : "rootfs" ∈ b.dev.mtd) : b.dev.isEmmcPart "rootfs" = false := by
  simp [Device.isEmmcPart, Device.flashTypeEmmc, Device.flashTypeNorplusmmc, h]

private theorem imageIsNand_of_kind {board : Board} {sec : String} (h : b.kind board sec = .ubi) :
    b.imageIsNand = true := by
  have hmem : ∃ pattern ∈ b.patterns board, pattern.2 = .ubi := by
    rw [Boot.kind] at h
    split at h
    · next pattern hfind => exact ⟨pattern, List.mem_of_find?_eq_some hfind, h⟩
    · cases h
  by_contra hnand
  obtain ⟨pattern, hmem, hubi⟩ := hmem
  simp only [Boot.patterns, if_neg hnand, List.mem_cons, List.not_mem_nil, or_false] at hmem
  rcases hmem with rfl | rfl | rfl | rfl | rfl | rfl | rfl | rfl | rfl | rfl | rfl | rfl | rfl <;>
    cases hubi

/-- A volume is part of the root file system that is not booted, and of no image. -/
theorem harmless_volume (hcommitted : b.Committed bootInfo₀) {bc : BootConfig} {alt : Bool}
    (halt : b.hasUpgradepartition "rootfs" = true → alt = b.dev.upgradepartition bc "rootfs")
    (hmtd : (if alt then alternative "rootfs" else "rootfs") ∈ b.dev.mtd) (vol : String)
    (data : α) : Harmless b bootInfo₀ (.volume "rootfs" (b.place "rootfs" alt) vol data) where
  place_ne name hname := by
    rintro ⟨rfl, heq⟩
    have hrootfs : "rootfs" ∈ b.dev.mtd := by
      cases alt with
      | false => exact hmtd
      | true => exact b.dev.rootfs_mem (.inr hmtd)
    rw [halt hname.1, place_of_not_emmc hcommitted hname (rootfs_not_emmc hrootfs)] at heq
    exact (Bool.eq_not_self _).mp heq.symm
  image_eq name _ st place := by
    simp only [Storage.apply]
    by_cases h : "rootfs" = name ∧ b.place "rootfs" alt = place
    · obtain ⟨rfl, rfl⟩ := h
      rw [flash_set_self]
    · rw [flash_set_of_ne h]
  bootconfig_ne _ := id

/-- A volume is upgraded. -/
theorem Upgrading.volume (htry : b.trybit = true) (hcommitted : b.Committed bootInfo₀)
    (h : Upgrading b image bootInfo₀ st₀ installed p) (sec vol : String) :
    Upgrading b image bootInfo₀ st₀ installed
      (b.doFlashFailsafeUbiVolume image sec "rootfs" vol p) := by
  rw [Boot.doFlashFailsafeUbiVolume, getAlternateBootconfig_eq _ htry, List.foldl_cons,
    List.foldl_nil]
  obtain ⟨alt, halt⟩ : ∃ alt, alt = if b.hasUpgradepartition "rootfs" then
      b.dev.upgradepartition (p.bootInfo !Upgrade.current p.bootInfo) "rootfs" else false :=
    ⟨_, rfl⟩
  simp only [← halt]
  by_cases hmtd : (if alt then alternative "rootfs" else "rootfs") ∈ b.dev.mtd
  · rw [if_pos hmtd]
    refine h.write fun w hw => ?_
    obtain rfl := List.mem_singleton.mp hw
    exact harmless_volume hcommitted (fun hhas => halt.trans (if_pos hhas)) hmtd vol _
  · rw [if_neg hmtd]
    exact h

/-- A partition with two places is upgraded. -/
theorem Upgrading.failsafe (htry : b.trybit = true) (hcommitted : b.Committed bootInfo₀)
    (h : Upgrading b image bootInfo₀ st₀ installed p) (sec name : String) :
    Upgrading b image bootInfo₀ st₀ (Function.update installed name (some sec))
      (b.doFlashFailsafePartition image sec name p) := by
  refine h.flash htry true (fun htwofold bc hbc => ?_) sec
  obtain rfl := hbc.resolve_right (by decide)
  exact place_upgradepartition hcommitted htwofold rfl

/-- What a section does to the partition that it is for. -/
theorem Upgrading.section (htry : b.trybit = true) (hcommitted : b.Committed bootInfo₀)
    (h : Upgrading b image bootInfo₀ st₀ installed p) (board : Board) (sec : String) :
    Upgrading b image bootInfo₀ st₀
      (match b.target board sec with
        | some name => Function.update installed name (some sec)
        | none => installed)
      (b.flashSection image board p sec) := by
  rw [Boot.target, Boot.flashSection]
  cases hkind : b.kind board sec with
  | failsafe name => exact h.failsafe htry hcommitted sec name
  | wifi => exact (h.failsafe htry hcommitted sec "0:WIFIFW").volume htry hcommitted sec "wifi_fw"
  | ubi =>
    have hrootfs : "rootfs" ∈ b.dev.mtd :=
      b.dev.rootfs_mem (.inl (of_decide_eq_true (imageIsNand_of_kind hkind)))
    exact h.flash htry false (fun htwofold bc _ =>
      place_of_not_emmc hcommitted htwofold (rootfs_not_emmc hrootfs) bc) sec
  | sbl =>
    have hsbl : ¬b.Twofold "0:SBL1" := fun htwofold => htwofold.2 rfl
    refine h.write fun w hw => ?_
    rcases List.mem_append.mp hw with hw | hw
    · exact harmless_doFlash hsbl sec false w hw
    · exact harmless_doFlash hsbl sec true w hw
  | present name =>
    by_cases hpresent : b.present name false = true
    · simp only [if_pos hpresent]
      exact h.failsafe htry hcommitted sec name
    · simp only [if_neg hpresent]
      exact h
  | ignored => exact h

/-- All sections of an image are upgraded. -/
theorem upgrading_sections (htry : b.trybit = true) (hcommitted : b.Committed bootInfo₀)
    (board : Board) (sections : List String) :
    Upgrading b image bootInfo₀ st₀ (b.installed board sections)
      (sections.foldl (b.flashSection image board) ⟨bootInfo₀, []⟩) := by
  have hrun : ∀ {installed : String → Option String} {p : Progress α},
      Upgrading b image bootInfo₀ st₀ installed p →
      Upgrading b image bootInfo₀ st₀
        (sections.foldl (fun installed sec =>
          match b.target board sec with
          | some name => Function.update installed name (some sec)
          | none => installed) installed)
        (sections.foldl (b.flashSection image board) p) := by
    induction sections with
    | nil => exact fun h => h
    | cons sec sections ih => exact fun h => ih (h.section htry hcommitted board sec)
  exact hrun upgrading_start

end Flash

end TurrisBuild.Upgrade
