import Mathlib.Data.Int.Init
import Mathlib.Logic.Function.Basic

/-!
# Boot configurations

The two boot configurations say for every partition with an alternative which of the two is
booted, and the newer configuration is the one in force. The kernel reads them from flash, repairs
one of them from the other, and shows them below `/proc/boot_info`, where their fields can be
written. They go back to flash only when someone writes them there.
-/

namespace TurrisBuild.Upgrade

/-- `struct sbl_if_dualboot_info_type_v2`, with the field `primaryboot` of a partition by its
name -/
structure BootConfig where
  age : BitVec 32
  primaryboot : String → Bool

/-- `age_show`, which prints a signed number -/
def BootConfig.ageShow (bc : BootConfig) : ℤ := bc.age.toInt

/-- `age_write`. A negative number is not accepted. -/
def BootConfig.ageWrite (bc : BootConfig) (val : ℤ) : BootConfig :=
  if val < 0 then bc else { bc with age := BitVec.ofInt 32 val }

/-- `part_primaryboot_write` -/
def BootConfig.primarybootWrite (bc : BootConfig) (name : String) (val : Bool) : BootConfig :=
  { bc with primaryboot := Function.update bc.primaryboot name val }

/-! ### Partitions -/

/-- The name of the alternative partition. -/
def alternative (name : String) : String := name ++ "_1"

/-- The partitions of a board, and the names in its boot configurations. -/
structure Device where
  /-- What `find_mmc_part` finds. -/
  mmc : List String
  /-- What is in `/proc/mtd`. -/
  mtd : List String
  names : List String
  /-- A boot configuration names partitions that exist. -/
  names_present : ∀ name ∈ names, name ∈ mmc ∨ name ∈ mtd
  /-- The alternative root file system and UBI volumes come with that partition. -/
  rootfs_mem : "ubi_rootfs" ∈ mtd ∨ alternative "rootfs" ∈ mtd → "rootfs" ∈ mtd

variable (dev : Device)

/-- `flash_type_norplusmmc` -/
def Device.flashTypeNorplusmmc : Bool := "rootfs" ∉ dev.mtd ∧ "0:BOOTCONFIG" ∈ dev.mtd

/-- `flash_type_emmc` -/
def Device.flashTypeEmmc : Bool :=
  "rootfs" ∉ dev.mtd ∧ "0:BOOTCONFIG" ∉ dev.mtd ∧ "0:BOOTCONFIG1" ∈ dev.mmc

/-- The partition is on the eMMC, where its name does not depend on what is booted. -/
def Device.isEmmcPart (name : String) : Bool :=
  dev.flashTypeEmmc || dev.flashTypeNorplusmmc &&
    ["rootfs", "0:HLOS", "0:WIFIFW"].any fun part => (name.toList.take 10).isPrefixOf part.toList

/-- `part_upgradepartition_show`: whether the alternative name is shown -/
def Device.upgradepartition (bc : BootConfig) (name : String) : Bool :=
  !(dev.isEmmcPart name && bc.primaryboot name)

/-- `check_alt_partition` -/
def Device.checkAltPartition (name : String) : Bool :=
  alternative name ∈ dev.mtd ∨ alternative name ∈ dev.mmc

/-- The partitions that `bootconfig_partition_init` makes directories for. -/
def Device.partnameDirs : List String :=
  dev.names.filter fun name => (dev.flashTypeEmmc || name != "kernel") && dev.checkAltPartition name

/-! ### Initialization -/

/-- `restore_bootconfig_partition`: a configuration that is corrupted, from the one that was
booted. Without the failsafe feature it is the copy that the boot loader hands over. -/
def restore (failsafe : Bool) (valid : BootConfig) : BootConfig :=
  if failsafe then
    { age := valid.age - 1
      primaryboot := fun name => !valid.primaryboot name }
  else valid

/-- The configurations as they are read, with one that is corrupted restored. A configuration whose
checksum is wrong is missing. -/
def readBootconfigs (failsafe : Bool) (saved : Bool → Option BootConfig) :
    Option (Bool → BootConfig) :=
  match saved false, saved true with
  | none, none => none
  | some bc0, none => some fun which => if which then restore failsafe bc0 else bc0
  | none, some bc1 => some fun which => if which then bc1 else restore failsafe bc1
  | some bc0, some bc1 => some fun which => if which then bc1 else bc0

/-- With the failsafe feature a configuration that the boot loader reports as failed
(`BOOTCONFIG_HEALTH`, `BOOTCONFIG1_HEALTH`) becomes older than the other one, in memory only. -/
def failedAges (failsafe : Bool) (failed : Bool → Bool) (bootInfo : Bool → BootConfig) :
    Bool → BootConfig :=
  if failsafe then
    if failed false then
      Function.update bootInfo false { bootInfo false with age := (bootInfo true).age - 1 }
    else if failed true then
      Function.update bootInfo true { bootInfo true with age := (bootInfo false).age - 1 }
    else bootInfo
  else bootInfo

/-- `bootconfig_partition_init` with the try feature: the configurations on flash, and those that
are shown. -/
def bootconfigPartitionInit (failsafe : Bool) (failed : Bool → Bool)
    (saved : Bool → Option BootConfig) : Option ((Bool → BootConfig) × (Bool → BootConfig)) :=
  (readBootconfigs failsafe saved).map fun bootInfo =>
    (bootInfo, failedAges failsafe failed bootInfo)

end TurrisBuild.Upgrade
