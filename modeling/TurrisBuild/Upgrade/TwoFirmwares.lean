import Mathlib.Algebra.Ring.Int.Defs
import Mathlib.Data.Bool.Basic
import TurrisBuild.Upgrade.TryMode

/-!
# Runs of a board with the try feature

The boot loader boots the newer configuration, or the other one to try it once. Between that,
upgrades and commits are made, and the power may be cut after any of their writes. To its user the
board has two firmwares: the one in force, and a spare one that upgrades change and that a commit
exchanges with it.
-/

namespace TurrisBuild.Upgrade

variable {α : Type*}

/-! ### Two firmwares -/

/-- The contents of all partitions that are kept twice, in two versions. -/
structure Firmwares (α : Type*) where
  active : String → Content α
  spare : String → Content α

namespace Firmwares

variable (twofold : String → Prop) (f f' : Firmwares α)

/-- Neither firmware changes. -/
def Same : Prop :=
  ∀ name, twofold name → f'.active name = f.active name ∧ f'.spare name = f.spare name

/-- The firmwares are exchanged. -/
def Exchanged : Prop :=
  ∀ name, twofold name → f'.active name = f.spare name ∧ f'.spare name = f.active name

/-- Images are installed in the spare firmware. -/
def Installs (images : String → Option α) : Prop :=
  ∀ name, twofold name → f'.active name = f.active name ∧
    (f'.spare name).image = (images name).or (f.spare name).image

/-- The firmware in force is left, whatever becomes of the other one. -/
def Keeps : Prop := ∀ name, twofold name → f'.active name = f.active name

/-- One of the two firmwares is in force, and that as a whole. -/
def Chooses : Prop := Keeps twofold f f' ∨ ∀ name, twofold name → f'.active name = f.spare name

end Firmwares

/-! ### The system -/

/-- A board: its flash, the boot configurations in memory, and what was booted. -/
structure System (α : Type*) where
  storage : Storage α
  bootInfo : Bool → BootConfig
  running : String → Bool

/-- What a user does. -/
inductive Action
  | upgrade (sections : List String)
  | ageDoUpgrade
  | commitBootconfig (which : Bool)

/-- What happens to a board: an action is done, the power is cut after some of its writes, or the
board is restarted, perhaps to try the other configuration. The boot loader may report
configurations as failed. -/
inductive Event
  | run (action : Action)
  | cut (action : Action) (writes : ℕ) (failed : Bool → Bool)
  | restart (trial : Bool) (failed : Bool → Bool)

section System

variable (dev : Device) (board : Board) (failsafe : Bool) (image : String → α)

def System.boot (s : System α) : Boot := ⟨dev, s.running, true⟩

def perform (s : System α) : Action → Progress α
  | .upgrade sections => (s.boot dev).platformDoUpgrade image board sections ⟨s.bootInfo, []⟩
  | .ageDoUpgrade => (s.boot dev).ageDoUpgrade ⟨s.bootInfo, []⟩
  | .commitBootconfig which => Boot.commitBootconfig which ⟨s.bootInfo, []⟩

/-- The boot loader reports no configuration as failed. -/
def healthy : Bool → Bool := fun _ => false

/-- The boot loader takes the newer configuration, or the other one for a trial. A configuration
that is repaired goes to flash. -/
def System.restart (s : System α) (failed : Bool → Bool) (trial : Bool) : System α :=
  match bootconfigPartitionInit failsafe failed s.storage.saved with
  | none => s
  | some (saved, bootInfo) =>
    { storage := { s.storage with saved := fun which => some (saved which) }
      bootInfo := bootInfo
      running := if trial then spare saved else booted saved }

def System.write (s : System α) (writes : List (Write α)) : System α :=
  { s with storage := writes.foldl Storage.apply s.storage }

def step (s : System α) : Event → System α
  | .run action =>
    let p := perform dev board image s action
    { s.write p.writes with bootInfo := p.bootInfo }
  | .cut action writes failed =>
    (s.write ((perform dev board image s action).writes.take writes)).restart failsafe failed false
  | .restart trial failed => s.restart failsafe failed trial

/-- The firmwares of a board. -/
def System.firmwares (s : System α) : Firmwares α where
  active name := s.storage.flash name (booted s.bootInfo name)
  spare name := s.storage.flash name (spare s.bootInfo name)

/-! ### What steps mean -/

/-- The partitions that are kept twice. -/
def Device.Twofold (name : String) : Prop :=
  name ∈ dev.partnameDirs ∧ name ≠ "0:SBL1"

/-- The images that an upgrade installs. -/
def images (s : System α) (sections : List String) (name : String) : Option α :=
  if board.sysupgrade then ((s.boot dev).installed board sections name).map image else none

/-- What a step does to the firmwares. -/
def Means (s : System α) (e : Event) : Prop :=
  let f := s.firmwares
  let f' := (step dev board failsafe image s e).firmwares
  match e with
  | .run (.upgrade sections) => f.Installs dev.Twofold f' (images dev board image s sections)
  | .run .ageDoUpgrade => f.Exchanged dev.Twofold f'
  | .run (.commitBootconfig which) =>
    if which = current s.bootInfo then f.Same dev.Twofold f' else f.Exchanged dev.Twofold f'
  | .cut (.upgrade _) _ _ => f.Keeps dev.Twofold f'
  | .cut _ _ _ => f.Chooses dev.Twofold f'
  | .restart _ _ => f.Same dev.Twofold f'

/-- Partitions that are renamed at boot are flashed only when they were booted from where the
configuration in force says, ages are below the greatest number, and no configuration is reported
as failed. -/
def Permitted (s : System α) : Event → Prop
  | .run (.upgrade _) => (s.boot dev).Committed s.bootInfo
  | .cut (.upgrade _) _ failed => (s.boot dev).Committed s.bootInfo ∧ failed = healthy
  | .run _ => (s.bootInfo (current s.bootInfo)).ageShow < 2 ^ 31 - 1
  | .cut _ _ failed =>
    (s.bootInfo (current s.bootInfo)).ageShow < 2 ^ 31 - 1 ∧ failed = healthy
  | .restart _ failed => failed = healthy

/-- The configuration in force is at most one step newer. -/
def Ages (bootInfo : Bool → BootConfig) : Prop :=
  0 ≤ (bootInfo (current bootInfo)).ageShow ∧
    (bootInfo (current bootInfo)).ageShow ≤ (bootInfo (!current bootInfo)).ageShow + 1

/-- The invariant of a board. -/
structure WellFormed (s : System α) : Prop where
  saved_eq : ∀ which, s.storage.saved which = some (s.bootInfo which)
  ages : Ages s.bootInfo

end System

/-! ### Ages -/

private theorem ageShow_ageWrite {bc : BootConfig} {val : ℤ} (hnonneg : 0 ≤ val)
    (hlt : val < 2 ^ 31) :
    (bc.ageWrite val).ageShow = val := by
  rw [BootConfig.ageWrite, if_neg (by omega), BootConfig.ageShow, BitVec.toInt_ofInt]
  exact Int.bmod_eq_of_le (by omega) (by omega)

private theorem ageShow_sub_one {age : BitVec 32} (h : 0 ≤ age.toInt) :
    (age - 1).toInt = age.toInt - 1 := by
  have hlt : age.toInt < 2 ^ 31 := BitVec.toInt_lt
  have hone : (1 : BitVec 32).toInt = 1 := by decide
  rw [BitVec.toInt_sub, hone]
  exact Int.bmod_eq_of_le (by omega) (by omega)

/-- The one that is not in force is not newer. -/
theorem ageShow_le (bootInfo : Bool → BootConfig) :
    (bootInfo (!current bootInfo)).ageShow ≤ (bootInfo (current bootInfo)).ageShow := by
  cases h : current bootInfo with
  | false =>
    have hlt := of_decide_eq_false h
    rw [Bool.not_false]
    omega
  | true => exact of_decide_eq_true h

/-- A configuration that is newer than the other one is in force. -/
theorem current_update {bootInfo : Bool → BootConfig} {which : Bool} {bc : BootConfig}
    (h : (bootInfo (!which)).ageShow < bc.ageShow) :
    current (Function.update bootInfo which bc) = which := by
  cases which with
  | false =>
    have hlt : (bootInfo true).ageShow < bc.ageShow := h
    rw [current, Function.update_self, Function.update_of_ne (by decide)]
    exact decide_eq_false (by omega)
  | true =>
    have hlt : (bootInfo false).ageShow < bc.ageShow := h
    rw [current, Function.update_self, Function.update_of_ne (by decide)]
    exact decide_eq_true (by omega)

/-! ### Restarts -/

/-- The configurations after one was repaired. -/
def repaired (failsafe : Bool) (valid : Bool) (bc : BootConfig) : Bool → BootConfig :=
  Function.update (fun _ => restore failsafe bc) valid bc

/-- Two valid configurations are read as they are. -/
theorem readBootconfigs_of_both {failsafe : Bool} {saved : Bool → Option BootConfig}
    {bootInfo : Bool → BootConfig} (h : ∀ which, saved which = some (bootInfo which)) :
    readBootconfigs failsafe saved = some bootInfo := by
  rw [readBootconfigs, h false, h true]
  refine congrArg some (funext fun which => ?_)
  cases which with
  | false => rfl
  | true => rfl

/-- A lost configuration is repaired from the other one. -/
theorem readBootconfigs_of_one {failsafe : Bool} {saved : Bool → Option BootConfig}
    {valid : Bool} {bc : BootConfig} (h : saved valid = some bc) (hnone : saved (!valid) = none) :
    readBootconfigs failsafe saved = some (repaired failsafe valid bc) := by
  cases valid with
  | false =>
    rw [readBootconfigs, h, show saved true = none from hnone]
    refine congrArg some (funext fun which => ?_)
    cases which with
    | false => rfl
    | true => rfl
  | true =>
    rw [readBootconfigs, h, show saved false = none from hnone]
    refine congrArg some (funext fun which => ?_)
    cases which with
    | false => rfl
    | true => rfl

/-- Without a report the configurations are shown as they are on flash. -/
theorem bootconfigPartitionInit_healthy (failsafe : Bool) (saved : Bool → Option BootConfig) :
    bootconfigPartitionInit failsafe healthy saved =
      (readBootconfigs failsafe saved).map fun bootInfo => (bootInfo, bootInfo) := by
  have hages : ∀ bootInfo, failedAges failsafe healthy bootInfo = bootInfo := by
    intro bootInfo
    rw [failedAges]
    exact ite_self _
  rw [bootconfigPartitionInit]
  simp only [hages]

section Repaired

variable (failsafe valid : Bool) {bc : BootConfig}

private theorem repaired_not : repaired failsafe valid bc (!valid) = restore failsafe bc := by
  rw [repaired, Function.update_of_ne (Bool.not_eq_self valid).mp]

private theorem ageShow_restore (hage : 0 ≤ bc.ageShow) :
    (restore failsafe bc).ageShow = if failsafe then bc.ageShow - 1 else bc.ageShow := by
  cases failsafe with
  | false => rfl
  | true => exact ageShow_sub_one hage

/-- Whichever of two configurations is in force after a repair, it boots the same. -/
theorem repaired_current (hage : 0 ≤ bc.ageShow) :
    repaired failsafe valid bc (current (repaired failsafe valid bc)) = bc ∧
      Ages (repaired failsafe valid bc) := by
  cases failsafe with
  | false =>
    have hall : ∀ which, repaired false valid bc which = bc := by
      intro which
      rw [repaired]
      rcases eq_or_ne which valid with rfl | hne
      · rw [Function.update_self]
      · rw [Function.update_of_ne hne]
        rfl
    refine ⟨hall _, ?_⟩
    rw [Ages, hall, hall]
    omega
  | true =>
    have hrestored : (restore true bc).ageShow = bc.ageShow - 1 := ageShow_restore true hage
    have hcurrent : current (repaired true valid bc) = valid := by
      rw [repaired]
      refine current_update ?_
      rw [hrestored]
      omega
    have hself : repaired true valid bc valid = bc := by rw [repaired, Function.update_self]
    refine ⟨by rw [hcurrent, hself], ?_⟩
    rw [Ages, hcurrent, hself, repaired_not, hrestored]
    omega

end Repaired

section Restart

variable {dev : Device} {failsafe : Bool} {s : System α}

/-- A restart with both configurations. -/
theorem restart_of_both (trial : Bool) {bootInfo : Bool → BootConfig}
    (h : ∀ which, s.storage.saved which = some (bootInfo which)) (hages : Ages bootInfo) :
    WellFormed (s.restart failsafe healthy trial) ∧
      (s.restart failsafe healthy trial).bootInfo = bootInfo ∧
      (s.restart failsafe healthy trial).storage.flash = s.storage.flash := by
  rw [System.restart, bootconfigPartitionInit_healthy, readBootconfigs_of_both h]
  exact ⟨⟨fun _ => rfl, hages⟩, rfl, rfl⟩

/-- A restart with one configuration. -/
theorem restart_of_one {valid : Bool} {bc : BootConfig} (h : s.storage.saved valid = some bc)
    (hnone : s.storage.saved (!valid) = none) (hage : 0 ≤ bc.ageShow) :
    WellFormed (s.restart failsafe healthy false) ∧
      booted (s.restart failsafe healthy false).bootInfo = bc.primaryboot ∧
      (s.restart failsafe healthy false).storage.flash = s.storage.flash := by
  obtain ⟨hcurrent, hages⟩ := repaired_current failsafe valid hage
  rw [System.restart, bootconfigPartitionInit_healthy, readBootconfigs_of_one h hnone]
  refine ⟨⟨fun _ => rfl, hages⟩, funext fun name => ?_, rfl⟩
  exact congrArg (BootConfig.primaryboot · name) hcurrent

/-- A restart leaves the firmware in force when its configuration is saved, and the other
one is too or is missing. -/
theorem restart_keeps {writes : List (Write α)} (hages : Ages s.bootInfo)
    (hsaved : (∃ bootInfo,
        (∀ which, (writes.foldl Storage.apply s.storage).saved which = some (bootInfo which)) ∧
          Ages bootInfo ∧ booted bootInfo = booted s.bootInfo) ∨
      (writes.foldl Storage.apply s.storage).saved (current s.bootInfo) =
          some (s.bootInfo (current s.bootInfo)) ∧
        (writes.foldl Storage.apply s.storage).saved (!current s.bootInfo) = none)
    (hflash : ∀ name, dev.Twofold name → (writes.foldl Storage.apply s.storage).flash name
      (booted s.bootInfo name) = s.firmwares.active name) :
    WellFormed ((s.write writes).restart failsafe healthy false) ∧
      s.firmwares.Keeps dev.Twofold
        ((s.write writes).restart failsafe healthy false).firmwares := by
  have hkeeps : ∀ t : System α, booted t.bootInfo = booted s.bootInfo →
      t.storage.flash = (writes.foldl Storage.apply s.storage).flash →
      s.firmwares.Keeps dev.Twofold t.firmwares := by
    intro t hbooted hsame name hname
    rw [← hflash name hname]
    simp only [System.firmwares, hbooted, hsame]
  rcases hsaved with ⟨bootInfo, hboth, hages, hbooted⟩ | ⟨hone, hnone⟩
  · have hsaved : ∀ which, (s.write writes).storage.saved which = some (bootInfo which) := hboth
    obtain ⟨hwf, hinfo, hsame⟩ := restart_of_both false hsaved hages
    exact ⟨hwf, hkeeps _ (by rw [hinfo, hbooted]) hsame⟩
  · have hsaved : (s.write writes).storage.saved (current s.bootInfo) =
        some (s.bootInfo (current s.bootInfo)) := hone
    obtain ⟨hwf, hbooted, hsame⟩ := restart_of_one hsaved hnone hages.1
    exact ⟨hwf, hkeeps _ hbooted hsame⟩

end Restart

/-! ### Upgrades -/

/-- A configuration is written. -/
def saving (which : Bool) (bc : BootConfig) : List (Write α) :=
  [.eraseBootconfig which, .bootconfig which bc]

section Upgrade

variable {dev : Device} {board : Board} {failsafe : Bool} {image : String → α} {s : System α}

/-- Which partitions are there twice depends on the device alone. -/
theorem twofold_iff {b : Boot} {name : String} : b.Twofold name ↔ b.dev.Twofold name :=
  and_congr_left' decide_eq_true_iff

/-- The writes of an upgrade: those of its sections, and then the configuration that is not in
force. -/
theorem platformDoUpgrade_eq (hcommitted : (s.boot dev).Committed s.bootInfo)
    (hsysupgrade : board.sysupgrade = true) (sections : List String) :
    ∃ p : Progress α, Upgrading (s.boot dev) image s.bootInfo s.storage
        ((s.boot dev).installed board sections) p ∧
      perform dev board image s (.upgrade sections) =
        p.write (saving (!current s.bootInfo) (p.bootInfo (!current s.bootInfo))) := by
  have htry : (s.boot dev).trybit = true := rfl
  have hsections : Upgrading (s.boot dev) image s.bootInfo s.storage
      ((s.boot dev).installed board sections)
      (sections.foldl ((s.boot dev).flashSection image board) ⟨s.bootInfo, []⟩) :=
    upgrading_sections htry hcommitted board sections
  refine ⟨_, hsections, ?_⟩
  simp only [perform, Boot.platformDoUpgrade, if_pos hsysupgrade,
    getAlternateBootconfig_eq _ htry, List.foldl_cons, List.foldl_nil, hsections.current]
  rfl

/-- What is saved when this is cut off. -/
theorem saved_saving (st : Storage α) (which : Bool) (bc : BootConfig) (n : ℕ) :
    let st' := ((saving which bc).take n).foldl Storage.apply st
    st'.flash = st.flash ∧ st'.saved (!which) = st.saved (!which) ∧
      (n = 0 ∧ st'.saved which = st.saved which ∨ n = 1 ∧ st'.saved which = none ∨
        2 ≤ n ∧ st'.saved which = some bc) := by
  have hne : (!which) ≠ which := (Bool.not_eq_self which).mp
  match n with
  | 0 => exact ⟨rfl, rfl, .inl ⟨rfl, rfl⟩⟩
  | 1 =>
    exact ⟨rfl, Function.update_of_ne hne _ _,
      .inr (.inl ⟨rfl, Function.update_self which _ _⟩)⟩
  | k + 2 =>
    have hall : (saving which bc : List (Write α)).take (k + 2) = saving which bc :=
      List.take_of_length_le (Nat.le_add_left 2 k)
    rw [hall]
    exact ⟨rfl, (Function.update_of_ne hne _ _).trans (Function.update_of_ne hne _ _),
      .inr (.inr ⟨Nat.le_add_left 2 k, Function.update_self which _ _⟩)⟩

/-- What was saved before an upgrade and after a part of it. -/
theorem saved_upgrade {p : Progress α} {installed : String → Option String}
    (hs : WellFormed s) (h : Upgrading (s.boot dev) image s.bootInfo s.storage installed p)
    (n : ℕ) :
    let alt := !current s.bootInfo
    let st := ((p.write (saving alt (p.bootInfo alt))).writes.take n).foldl Storage.apply s.storage
    (∀ name, dev.Twofold name →
        st.flash name (booted s.bootInfo name) = s.firmwares.active name) ∧
      st.saved (current s.bootInfo) = some (s.bootInfo (current s.bootInfo)) ∧
      (st.saved alt = some (s.bootInfo alt) ∨ st.saved alt = none ∨
        st.saved alt = some (p.bootInfo alt)) := by
  intro alt st
  have hst : st = ((saving alt (p.bootInfo alt)).take (n - p.writes.length)).foldl Storage.apply
      ((p.writes.take n).foldl Storage.apply s.storage) := by
    rw [← List.foldl_append, ← List.take_append]
    rfl
  have hsaved : ∀ which, ((p.writes.take n).foldl Storage.apply s.storage).saved which =
      some (s.bootInfo which) := by
    intro which
    rw [saved_applyAll fun w hw => h.bootconfig_ne w (List.mem_of_mem_take hw) which]
    exact hs.saved_eq which
  obtain ⟨hflash, hcurrent, halt⟩ := saved_saving ((p.writes.take n).foldl Storage.apply s.storage)
    alt (p.bootInfo alt) (n - p.writes.length)
  rw [← hst] at hflash hcurrent halt
  refine ⟨fun name hname => ?_, ?_, ?_⟩
  · rw [hflash]
    exact flash_applyAll fun w hw =>
      h.place_ne w (List.mem_of_mem_take hw) name (twofold_iff.mpr hname)
  · rw [show (!alt) = current s.bootInfo from Bool.not_not _, hsaved] at hcurrent
    exact hcurrent
  · rw [hsaved] at halt
    rcases halt with ⟨-, heq⟩ | ⟨-, heq⟩ | ⟨-, heq⟩
    · exact .inl heq
    · exact .inr (.inl heq)
    · exact .inr (.inr heq)

private theorem booted_upgrading {p : Progress α} {installed : String → Option String}
    (h : Upgrading (s.boot dev) image s.bootInfo s.storage installed p) :
    booted p.bootInfo = booted s.bootInfo := by
  funext name
  rw [booted, booted, h.current, h.current_eq]

private theorem ages_upgrading {p : Progress α} {installed : String → Option String}
    (h : Upgrading (s.boot dev) image s.bootInfo s.storage installed p) (hages : Ages s.bootInfo) :
    Ages p.bootInfo := by
  rw [Ages, h.current, BootConfig.ageShow, BootConfig.ageShow, h.age_eq, h.age_eq]
  exact hages

private theorem step_upgrade (hs : WellFormed s) (hcommitted : (s.boot dev).Committed s.bootInfo)
    (sections : List String) :
    WellFormed (step dev board failsafe image s (.run (.upgrade sections))) ∧
      Means dev board failsafe image s (.run (.upgrade sections)) := by
  cases hsysupgrade : board.sysupgrade with
  | false =>
    have hnone : perform dev board image s (.upgrade sections) = ⟨s.bootInfo, []⟩ := by
      simp only [perform, Boot.platformDoUpgrade, hsysupgrade, Bool.false_eq_true, if_false]
    have hstep : step dev board failsafe image s (.run (.upgrade sections)) = s := by
      simp only [step, hnone]
      rfl
    simp only [Means, hstep]
    refine ⟨hs, fun name _ => ⟨rfl, ?_⟩⟩
    rw [images, hsysupgrade, if_neg Bool.false_ne_true, Option.none_or]
  | true =>
    obtain ⟨p, h, hperform⟩ :
        ∃ p : Progress α, Upgrading (s.boot dev) image s.bootInfo s.storage
            ((s.boot dev).installed board sections) p ∧
          perform dev board image s (.upgrade sections) =
            p.write (saving (!current s.bootInfo) (p.bootInfo (!current s.bootInfo))) :=
      platformDoUpgrade_eq hcommitted hsysupgrade sections
    obtain ⟨hflash, hcurrent, halt⟩ := saved_saving (p.writes.foldl Storage.apply s.storage)
      (!current s.bootInfo) (p.bootInfo (!current s.bootInfo)) 2
    have hstep : step dev board failsafe image s (.run (.upgrade sections)) =
        { s with
          storage := (saving (!current s.bootInfo) (p.bootInfo (!current s.bootInfo))).foldl
            Storage.apply (p.writes.foldl Storage.apply s.storage)
          bootInfo := p.bootInfo } := by
      simp only [step, hperform, System.write, Progress.write, List.foldl_append]
    have htake : ∀ bc : BootConfig, (saving (!current s.bootInfo) bc : List (Write α)).take 2 =
        saving (!current s.bootInfo) bc := fun _ => rfl
    rw [htake] at hflash hcurrent halt
    simp only [Means, hstep]
    refine ⟨⟨fun which => ?_, ages_upgrading h hs.ages⟩, fun name hname => ⟨?_, ?_⟩⟩
    · rcases eq_or_ne which (!current s.bootInfo) with rfl | hne
      · obtain ⟨hlt, -⟩ | ⟨heq, -⟩ | ⟨-, hsaved⟩ := halt
        · cases hlt
        · cases heq
        · exact hsaved
      · obtain rfl := Bool.ne_not.mp hne
        rw [Bool.not_not] at hcurrent
        rw [hcurrent, saved_applyAll fun w hw => h.bootconfig_ne w hw _, hs.saved_eq]
        exact congrArg some h.current_eq.symm
    · simp only [System.firmwares, booted_upgrading h, hflash]
      exact flash_applyAll fun w hw => h.place_ne w hw name (twofold_iff.mpr hname)
    · simp only [System.firmwares, spare, h.current, hflash]
      have hspare := h.spare_eq name (twofold_iff.mpr hname)
      rw [hspare, images, if_pos hsysupgrade]
      cases (s.boot dev).installed board sections name with
      | none => rfl
      | some sec => rfl

private theorem cut_upgrade (hs : WellFormed s) (hcommitted : (s.boot dev).Committed s.bootInfo)
    (sections : List String) (n : ℕ) :
    WellFormed (step dev board failsafe image s (.cut (.upgrade sections) n healthy)) ∧
      Means dev board failsafe image s (.cut (.upgrade sections) n healthy) := by
  cases hsysupgrade : board.sysupgrade with
  | false =>
    have hnone : perform dev board image s (.upgrade sections) = ⟨s.bootInfo, []⟩ := by
      simp only [perform, Boot.platformDoUpgrade, hsysupgrade, Bool.false_eq_true, if_false]
    simp only [Means, step, hnone, List.take_nil]
    exact restart_keeps hs.ages (.inl ⟨s.bootInfo, hs.saved_eq, hs.ages, rfl⟩) fun _ _ => rfl
  | true =>
    obtain ⟨p, h, hperform⟩ :
        ∃ p : Progress α, Upgrading (s.boot dev) image s.bootInfo s.storage
            ((s.boot dev).installed board sections) p ∧
          perform dev board image s (.upgrade sections) =
            p.write (saving (!current s.bootInfo) (p.bootInfo (!current s.bootInfo))) :=
      platformDoUpgrade_eq hcommitted hsysupgrade sections
    obtain ⟨hflash, hcurrent, halt⟩ := saved_upgrade hs h n
    simp only [Means, step, hperform]
    refine restart_keeps hs.ages ?_ hflash
    have hboth : ∀ bootInfo : Bool → BootConfig,
        bootInfo (current s.bootInfo) = s.bootInfo (current s.bootInfo) →
        (((p.write (saving (!current s.bootInfo) (p.bootInfo (!current s.bootInfo)))).writes.take
          n).foldl Storage.apply s.storage).saved (!current s.bootInfo) =
            some (bootInfo (!current s.bootInfo)) →
        ∀ which, (((p.write (saving (!current s.bootInfo)
          (p.bootInfo (!current s.bootInfo)))).writes.take n).foldl Storage.apply
            s.storage).saved which = some (bootInfo which) := by
      intro bootInfo hself hother which
      rcases eq_or_ne which (!current s.bootInfo) with rfl | hne
      · exact hother
      · rw [Bool.ne_not.mp hne, hcurrent, hself]
    rcases halt with hold | hnone | hnew
    · exact .inl ⟨s.bootInfo, hboth s.bootInfo rfl hold, hs.ages, rfl⟩
    · exact .inr ⟨hcurrent, hnone⟩
    · exact .inl ⟨p.bootInfo, hboth p.bootInfo h.current_eq hnew, ages_upgrading h hs.ages,
        booted_upgrading h⟩

end Upgrade

/-! ### Commits -/

section Commit

variable {dev : Device} {board : Board} {failsafe : Bool} {image : String → α} {s : System α}

/-- A configuration with a new age is saved. -/
def raised (s : System α) (which : Bool) (bc : BootConfig) : Progress α :=
  ⟨Function.update s.bootInfo which bc, saving which bc⟩

private theorem raiseAge_eq (which : Bool) (age : ℤ) :
    Boot.raiseAge which age (⟨s.bootInfo, []⟩ : Progress α) =
      raised s which ((s.bootInfo which).ageWrite age) := by
  simp only [Boot.raiseAge, Boot.doFlashBootconfig, Progress.update, Progress.write, raised, saving,
    List.nil_append, Function.update_self]

/-- `age_do_upgrade` raises the age of the configuration that is not in force. -/
theorem ageDoUpgrade_eq (hages : Ages s.bootInfo) :
    perform dev board image s .ageDoUpgrade =
      raised s (!current s.bootInfo) ((s.bootInfo (!current s.bootInfo)).ageWrite
        ((s.bootInfo (current s.bootInfo)).ageShow + 1)) := by
  have hle := ageShow_le s.bootInfo
  have htry : (s.boot dev).trybit = true := rfl
  rw [Ages] at hages
  rw [← raiseAge_eq]
  simp only [perform, Boot.ageDoUpgrade, if_pos htry]
  cases hcurrent : current s.bootInfo with
  | false =>
    rw [hcurrent, Bool.not_false] at hages hle
    have hlt := of_decide_eq_false hcurrent
    have hval : (s.bootInfo true).ageShow + 2 = (s.bootInfo false).ageShow + 1 := by omega
    rw [if_neg (by omega), if_neg (by omega), hval, Bool.not_false]
  | true =>
    rw [hcurrent, Bool.not_true] at hages hle
    split
    · next heq => rw [heq, Bool.not_true]
    · next hne =>
      have hval : (s.bootInfo false).ageShow + 2 = (s.bootInfo true).ageShow + 1 := by omega
      rw [if_pos (by omega), hval, Bool.not_true]

/-- `commit_bootconfig` raises the age of a configuration that is not newer than the other. -/
theorem commitBootconfig_eq (which : Bool) :
    which = current s.bootInfo ∧
        perform dev board image s (.commitBootconfig which) = ⟨s.bootInfo, []⟩ ∨
      (s.bootInfo (!which)).ageShow = (s.bootInfo (current s.bootInfo)).ageShow ∧
        perform dev board image s (.commitBootconfig which) =
          raised s which ((s.bootInfo which).ageWrite
            ((s.bootInfo (current s.bootInfo)).ageShow + 1)) := by
  simp only [perform, Boot.commitBootconfig]
  cases which with
  | false =>
    by_cases hle : (s.bootInfo false).ageShow ≤ (s.bootInfo true).ageShow
    · have hcurrent : current s.bootInfo = true := decide_eq_true hle
      rw [hcurrent, if_pos hle, raiseAge_eq]
      exact .inr ⟨rfl, rfl⟩
    · have hcurrent : current s.bootInfo = false := decide_eq_false hle
      rw [hcurrent, if_neg hle]
      exact .inl ⟨rfl, rfl⟩
  | true =>
    by_cases hle : (s.bootInfo true).ageShow ≤ (s.bootInfo false).ageShow
    · have hage : (s.bootInfo false).ageShow = (s.bootInfo (current s.bootInfo)).ageShow := by
        cases hcurrent : current s.bootInfo with
        | false => rfl
        | true =>
          have hge := of_decide_eq_true hcurrent
          omega
      simp only [if_pos hle, raiseAge_eq]
      rw [hage]
      exact .inr ⟨hage, rfl⟩
    · have hcurrent : current s.bootInfo = true := decide_eq_true (by omega)
      rw [if_neg hle]
      exact .inl ⟨hcurrent.symm, rfl⟩

section Raise

variable {which : Bool} (hs : WellFormed s)
  (hlt : (s.bootInfo (current s.bootInfo)).ageShow < 2 ^ 31 - 1)
  (hother : (s.bootInfo (!which)).ageShow = (s.bootInfo (current s.bootInfo)).ageShow)

/-- The configuration with its new age. -/
def newer (s : System α) (which : Bool) : BootConfig :=
  (s.bootInfo which).ageWrite ((s.bootInfo (current s.bootInfo)).ageShow + 1)

private theorem primaryboot_newer (hs : WellFormed s) :
    (newer s which).primaryboot = (s.bootInfo which).primaryboot := by
  have hage := hs.ages.1
  rw [newer, BootConfig.ageWrite, if_neg (by omega)]

include hs hlt hother

private theorem newer_spec : current (Function.update s.bootInfo which (newer s which)) = which ∧
    Ages (Function.update s.bootInfo which (newer s which)) := by
  have hage : (newer s which).ageShow = (s.bootInfo (current s.bootInfo)).ageShow + 1 := by
    have hnonneg := hs.ages.1
    exact ageShow_ageWrite (by omega) (by omega)
  have hcurrent : current (Function.update s.bootInfo which (newer s which)) = which := by
    refine current_update ?_
    omega
  have hne : (!which) ≠ which := (Bool.not_eq_self which).mp
  refine ⟨hcurrent, ?_⟩
  rw [Ages, hcurrent, Function.update_self, Function.update_of_ne hne, hage, hother]
  have hnonneg := hs.ages.1
  omega

/-- A configuration whose age is raised is in force. -/
theorem run_raised :
    let t : System α :=
      { s.write (saving which (newer s which)) with
        bootInfo := Function.update s.bootInfo which (newer s which) }
    WellFormed t ∧ if which = current s.bootInfo then s.firmwares.Same dev.Twofold t.firmwares
      else s.firmwares.Exchanged dev.Twofold t.firmwares := by
  intro t
  obtain ⟨hcurrent, hages⟩ := newer_spec hs hlt hother
  obtain ⟨hflash, hsaved, hnew⟩ := saved_saving s.storage which (newer s which) 2
  have htake : (saving which (newer s which) : List (Write α)).take 2 =
      saving which (newer s which) := rfl
  rw [htake] at hflash hsaved hnew
  have hprimary : (newer s which).primaryboot = (s.bootInfo which).primaryboot :=
    primaryboot_newer hs
  have hne : (!which) ≠ which := (Bool.not_eq_self which).mp
  have hbooted : booted t.bootInfo = (s.bootInfo which).primaryboot := by
    funext name
    rw [← hprimary]
    simp only [t, booted, hcurrent, Function.update_self]
  have hspare : spare t.bootInfo = (s.bootInfo (!which)).primaryboot := by
    funext name
    simp only [t, spare, hcurrent, Function.update_of_ne hne]
  have hsame : t.storage.flash = s.storage.flash := hflash
  refine ⟨⟨fun which' => ?_, hages⟩, ?_⟩
  · rcases eq_or_ne which' which with rfl | hwhich
    · obtain ⟨hlt, -⟩ | ⟨heq, -⟩ | ⟨-, heq⟩ := hnew
      · cases hlt
      · cases heq
      · rw [show t.bootInfo which' = newer s which' from Function.update_self _ _ _]
        exact heq
    · obtain rfl : which' = !which := Bool.eq_not.mpr hwhich
      rw [show t.bootInfo (!which) = s.bootInfo (!which) from Function.update_of_ne hne _ _]
      exact hsaved.trans (hs.saved_eq _)
  · split
    · next hwhich =>
      intro name _
      simp only [System.firmwares, hbooted, hspare, hsame, hwhich]
      exact ⟨rfl, rfl⟩
    · next hwhich =>
      have hcur : which = !current s.bootInfo := Bool.eq_not.mpr hwhich
      intro name _
      simp only [System.firmwares, hbooted, hspare, hsame, hcur, Bool.not_not]
      exact ⟨rfl, rfl⟩

/-- Wherever that is cut off, one of the two configurations is in force. -/
theorem cut_raised (n : ℕ) :
    let t := (s.write ((saving which (newer s which)).take n)).restart failsafe healthy false
    WellFormed t ∧ s.firmwares.Chooses dev.Twofold t.firmwares := by
  intro t
  obtain ⟨hflash, hsaved, hnew⟩ := saved_saving s.storage which (newer s which) n
  have hchooses : (∃ which', booted t.bootInfo = (s.bootInfo which').primaryboot) →
      t.storage.flash = s.storage.flash → s.firmwares.Chooses dev.Twofold t.firmwares := by
    rintro ⟨which', hbooted⟩ hsame
    rcases eq_or_ne which' (!current s.bootInfo) with rfl | hne
    · refine .inr fun name _ => ?_
      simp only [System.firmwares, hbooted, hsame]
      rfl
    · obtain rfl := Bool.ne_not.mp hne
      refine .inl fun name _ => ?_
      simp only [System.firmwares, hbooted, hsame]
      rfl
  rw [hs.saved_eq] at hsaved
  rcases hnew with ⟨-, hold⟩ | ⟨-, hnone⟩ | ⟨-, hnew⟩
  · have hboth : ∀ which', (s.write ((saving which (newer s which)).take n)).storage.saved which' =
        some (s.bootInfo which') := by
      intro which'
      rcases eq_or_ne which' (!which) with rfl | hwhich
      · exact hsaved
      · rw [Bool.ne_not.mp hwhich]
        exact hold.trans (hs.saved_eq which)
    obtain ⟨hwf, hinfo, hsame⟩ := restart_of_both false hboth hs.ages
    refine ⟨hwf, hchooses ⟨current s.bootInfo, ?_⟩ (hsame.trans hflash)⟩
    rw [show t.bootInfo = s.bootInfo from hinfo]
    rfl
  · have hage : 0 ≤ (s.bootInfo (!which)).ageShow := hother ▸ hs.ages.1
    have hone :
        (s.write ((saving which (newer s which)).take n)).storage.saved (!!which) = none := by
      rw [Bool.not_not]
      exact hnone
    obtain ⟨hwf, hbooted, hsame⟩ := restart_of_one hsaved hone hage
    exact ⟨hwf, hchooses ⟨!which, hbooted⟩ (hsame.trans hflash)⟩
  · obtain ⟨hcurrent, hages⟩ := newer_spec hs hlt hother
    have hne : (!which) ≠ which := (Bool.not_eq_self which).mp
    have hboth : ∀ which', (s.write ((saving which (newer s which)).take n)).storage.saved which' =
        some (Function.update s.bootInfo which (newer s which) which') := by
      intro which'
      rcases eq_or_ne which' (!which) with rfl | hwhich
      · rw [Function.update_of_ne hne]
        exact hsaved
      · rw [Bool.ne_not.mp hwhich, Function.update_self]
        exact hnew
    obtain ⟨hwf, hinfo, hsame⟩ := restart_of_both false hboth hages
    refine ⟨hwf, hchooses ⟨which, ?_⟩ (hsame.trans hflash)⟩
    funext name
    rw [show t.bootInfo = _ from hinfo, booted, hcurrent, Function.update_self,
      primaryboot_newer hs]

end Raise

end Commit

/-! ### Runs -/

section Run

variable {dev : Device} {board : Board} {failsafe : Bool} {image : String → α} {s : System α}

/-- An action that writes nothing. -/
theorem step_idle (hs : WellFormed s) {action : Action}
    (hidle : perform dev board image s action = ⟨s.bootInfo, []⟩) :
    step dev board failsafe image s (.run action) = s ∧ ∀ n,
      WellFormed (step dev board failsafe image s (.cut action n healthy)) ∧
        s.firmwares.Keeps dev.Twofold
          (step dev board failsafe image s (.cut action n healthy)).firmwares := by
  constructor
  · simp only [step, hidle]
    rfl
  · intro n
    simp only [step, hidle, List.take_nil]
    exact restart_keeps hs.ages (.inl ⟨s.bootInfo, hs.saved_eq, hs.ages, rfl⟩) fun _ _ => rfl

/-- An action that raises the age of a configuration. -/
theorem step_raising (hs : WellFormed s)
    (hlt : (s.bootInfo (current s.bootInfo)).ageShow < 2 ^ 31 - 1) {action : Action} {which : Bool}
    (hother : (s.bootInfo (!which)).ageShow = (s.bootInfo (current s.bootInfo)).ageShow)
    (hraises : perform dev board image s action = raised s which (newer s which)) :
    (WellFormed (step dev board failsafe image s (.run action)) ∧
      let f' := (step dev board failsafe image s (.run action)).firmwares
      if which = current s.bootInfo then s.firmwares.Same dev.Twofold f'
      else s.firmwares.Exchanged dev.Twofold f') ∧
    ∀ n, WellFormed (step dev board failsafe image s (.cut action n healthy)) ∧
      s.firmwares.Chooses dev.Twofold
        (step dev board failsafe image s (.cut action n healthy)).firmwares := by
  simp only [step, hraises, raised]
  exact ⟨run_raised hs hlt hother, fun n => cut_raised hs hlt hother n⟩

/-- **One step.** -/
theorem step_means {e : Event} (hs : WellFormed s) (hpermitted : Permitted dev s e) :
    WellFormed (step dev board failsafe image s e) ∧ Means dev board failsafe image s e := by
  have hage : (s.bootInfo (!!current s.bootInfo)).ageShow =
      (s.bootInfo (current s.bootInfo)).ageShow := by rw [Bool.not_not]
  have hne : (!current s.bootInfo) ≠ current s.bootInfo := (Bool.not_eq_self _).mp
  cases e with
  | run action =>
    cases action with
    | upgrade sections => exact step_upgrade hs hpermitted sections
    | ageDoUpgrade =>
      obtain ⟨hwf, hmeans⟩ := (step_raising hs hpermitted hage (ageDoUpgrade_eq hs.ages)).1
      rw [if_neg hne] at hmeans
      exact ⟨hwf, hmeans⟩
    | commitBootconfig which =>
      rcases commitBootconfig_eq which with ⟨hwhich, hidle⟩ | ⟨hother, hraises⟩
      · rw [Means, (step_idle hs hidle).1, if_pos hwhich]
        exact ⟨hs, fun _ _ => ⟨rfl, rfl⟩⟩
      · exact (step_raising hs hpermitted hother hraises).1
  | cut action n failed =>
    cases action with
    | upgrade sections =>
      obtain ⟨hcommitted, rfl⟩ := hpermitted
      exact cut_upgrade hs hcommitted sections n
    | ageDoUpgrade =>
      obtain ⟨hpermitted, rfl⟩ := hpermitted
      exact (step_raising hs hpermitted hage (ageDoUpgrade_eq hs.ages)).2 n
    | commitBootconfig which =>
      obtain ⟨hpermitted, rfl⟩ := hpermitted
      rcases commitBootconfig_eq which with ⟨-, hidle⟩ | ⟨hother, hraises⟩
      · obtain ⟨hwf, hkeeps⟩ := (step_idle hs hidle).2 n
        exact ⟨hwf, .inl hkeeps⟩
      · exact (step_raising hs hpermitted hother hraises).2 n
  | restart trial failed =>
    obtain rfl : failed = healthy := hpermitted
    obtain ⟨hwf, hinfo, hsame⟩ := restart_of_both trial hs.saved_eq hs.ages
    refine ⟨hwf, fun name _ => ?_⟩
    simp only [step, System.firmwares, hinfo, hsame, and_self]

end Run

/-- A board with an eMMC. -/
def emmcDevice : Device where
  mmc := ["0:BOOTCONFIG", "0:BOOTCONFIG1", "0:HLOS", "0:HLOS_1", "rootfs", "rootfs_1"]
  mtd := []
  names := ["0:HLOS", "rootfs"]
  names_present := by decide
  rootfs_mem := by decide

/-- A new board, with one firmware in both places. -/
def emmcStart : System ℕ :=
  let bootInfo := fun _ : Bool => BootConfig.mk 0 fun _ => false
  ⟨⟨fun _ _ => ⟨some 0, []⟩, fun which => some (bootInfo which)⟩, bootInfo, fun _ => false⟩

end TurrisBuild.Upgrade
