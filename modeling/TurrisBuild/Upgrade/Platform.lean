import TurrisBuild.Upgrade.BootConfig

/-!
# Flashing a firmware image

`platform.sh` writes the sections of an image to the partitions that are not booted, and toggles
the boot configuration so that they will be. With the try feature only the older of the two
configurations is changed, and its age is raised when the new firmware has been found good.
Without it both are changed at once.
-/

namespace TurrisBuild.Upgrade

/-- What a partition has: an image unless it is erased or only written in part, and the UBI
volumes that were updated since. -/
structure Content (α : Type*) where
  image : Option α
  volumes : List (String × α)

/-- A write to flash. Of the two places for a partition one is meant by a Boolean, which is the one
that `primaryboot` has when it is booted. -/
inductive Write (α : Type*)
  | erase (name : String) (place : Bool)
  | program (name : String) (place : Bool) (image : α)
  | volume (name : String) (place : Bool) (volume : String) (image : α)
  | eraseBootconfig (which : Bool)
  | bootconfig (which : Bool) (bc : BootConfig)

/-- What was found at boot: the board, the place that each partition was booted from, and whether
there is a try bit. -/
structure Boot where
  dev : Device
  running : String → Bool
  trybit : Bool

/-- What `get_board_details` says. -/
structure Board where
  fwName : String
  modelName : String
  sysupgrade : Bool

/-- The boot configurations in memory, and the writes to flash so far. -/
structure Progress (α : Type*) where
  bootInfo : Bool → BootConfig
  writes : List (Write α)

def Progress.update {α : Type*} (p : Progress α) (which : Bool) (bc : BootConfig) : Progress α :=
  { p with bootInfo := Function.update p.bootInfo which bc }

def Progress.write {α : Type*} (p : Progress α) (writes : List (Write α)) : Progress α :=
  { p with writes := p.writes ++ writes }

/-! ### Places -/

namespace Boot

variable (b : Boot)

/-- The place of a partition with a name, which is the alternative one or not. A boot loader that
renames the partitions gives the alternative name to the one that is not booted. -/
def place (name : String) (alt : Bool) : Bool :=
  if b.dev.isEmmcPart name then alt else b.running name ^^ alt

/-- The partition is there under a name. -/
def present (name : String) (alt : Bool) : Bool :=
  let mtdname := if alt then alternative name else name
  mtdname ∈ b.dev.mmc ∨ mtdname ∈ b.dev.mtd

/-- `image_is_nand` -/
def imageIsNand : Bool := "ubi_rootfs" ∈ b.dev.mtd

/-- There is a file `upgradepartition` for the partition. -/
def hasUpgradepartition (name : String) : Bool := name ∈ b.dev.partnameDirs

/-! ### Boot configurations -/

/-- `get_alternate_bootconfig` -/
def getAlternateBootconfig (bootInfo : Bool → BootConfig) : List Bool :=
  if b.trybit then
    if (bootInfo false).ageShow ≤ (bootInfo true).ageShow then [false] else [true]
  else [false, true]

/-- `get_current_bootconfig` -/
def getCurrentBootconfig (bootInfo : Bool → BootConfig) (bcname : Bool) : Bool :=
  if b.trybit then
    if (bootInfo false).ageShow ≤ (bootInfo true).ageShow then true else false
  else bcname

/-! ### Writing -/

section Flash

variable {α : Type*} (image : String → α)

/-- `do_flash_emmc` and `do_flash_mtd`, which erase a partition before they write it. -/
def doFlash (bin name : String) (alt : Bool) : List (Write α) :=
  if b.present name alt then
    [.erase name (b.place name alt), .program name (b.place name alt) (image bin)]
  else []

/-- The loop over the boot configurations to be changed: `upgradepartition` is read of the
current one or of the changed one itself. -/
def toggle (ofCurrent : Bool) (name : String) (p : Progress α) : Progress α × Bool :=
  (b.getAlternateBootconfig p.bootInfo).foldl
    (fun (p, alt) bcname =>
      if b.hasUpgradepartition name then
        let primaryBcname := b.getCurrentBootconfig p.bootInfo bcname
        let primaryboot := (p.bootInfo primaryBcname).primaryboot name
        let alt := b.dev.upgradepartition
          (p.bootInfo (if ofCurrent then primaryBcname else bcname)) name
        (p.update bcname ((p.bootInfo bcname).primarybootWrite name !primaryboot), alt)
      else (p, alt))
    (p, false)

/-- `do_flash_failsafe_partition` -/
def doFlashFailsafePartition (bin name : String) (p : Progress α) : Progress α :=
  let (p, alt) := b.toggle true name p
  p.write (b.doFlash image bin name alt)

/-- `do_flash_ubi` -/
def doFlashUbi (bin name : String) (p : Progress α) : Progress α :=
  let (p, alt) := b.toggle false name p
  p.write (b.doFlash image bin name alt)

/-- `do_flash_failsafe_ubi_volume` -/
def doFlashFailsafeUbiVolume (bin name vol : String) (p : Progress α) : Progress α :=
  let alt := (b.getAlternateBootconfig p.bootInfo).foldl
    (fun alt bcname =>
      if b.hasUpgradepartition name then b.dev.upgradepartition (p.bootInfo bcname) name else alt)
    false
  if (if alt then alternative name else name) ∈ b.dev.mtd then
    p.write [.volume name (b.place name alt) vol (image bin)]
  else p

/-! ### Sections -/

/-- `to_lower` and `to_upper` -/
def toLower (s : List Char) : List Char := s.map Char.toLower

@[inherit_doc toLower]
def toUpper (s : List Char) : List Char := s.map Char.toUpper

/-- What a section of an image is for. -/
inductive Kind
  | failsafe (name : String)
  | wifi
  | ubi
  | sbl
  | present (name : String)
  | ignored

/-- The patterns of `flash_section` up to their last character, in their order. -/
def patterns (board : Board) : List (List Char × Kind) :=
  let boardModel := toLower board.modelName.toList
  [("hlos".toList, if b.imageIsNand then .ignored else .failsafe "0:HLOS"),
    ("rootfs".toList, if b.imageIsNand then .ignored else .failsafe "rootfs"),
    ("wifi_fw_".toList ++ board.fwName.toList ++ ['-'], .wifi),
    ("ubi".toList, if b.imageIsNand then .ubi else .ignored),
    ("sbl1".toList, .sbl),
    ("u-boot".toList, .failsafe "0:APPSBL"),
    ("ddr-".toList ++ toUpper boardModel ++ ['_'], .present "0:CDT"),
    ("ddr-".toList ++ boardModel ++ ['-'], .failsafe "0:DDRCONFIG"),
    ("tz".toList, .present "0:QSEE"),
    ("tme".toList, .failsafe "0:TME"),
    ("devcfg".toList, .failsafe "0:DEVCFG"),
    ("apdp".toList, .failsafe "0:APDP"),
    ("rpm".toList, .failsafe "0:RPM")]

/-- What `flash_section` takes a section for. -/
def kind (board : Board) (sec : String) : Kind :=
  match (b.patterns board).find? fun pattern => pattern.1.isPrefixOf sec.toList with
  | some pattern => pattern.2
  | none => .ignored

/-- `flash_section`. The functions `do_flash_tz` and `do_flash_ddr` flash a partition only when it
is present. -/
def flashSection (board : Board) (p : Progress α) (sec : String) : Progress α :=
  match b.kind board sec with
  | .failsafe name => b.doFlashFailsafePartition image sec name p
  | .wifi =>
    b.doFlashFailsafeUbiVolume image sec "rootfs" "wifi_fw"
      (b.doFlashFailsafePartition image sec "0:WIFIFW" p)
  | .ubi => b.doFlashUbi image sec "rootfs" p
  | .sbl =>
    p.write (b.doFlash image sec "0:SBL1" false ++ b.doFlash image sec "0:SBL1" true)
  | .present name =>
    if b.present name false then b.doFlashFailsafePartition image sec name p else p
  | .ignored => p

/-- `do_flash_bootconfig` -/
def doFlashBootconfig (bcname : Bool) (p : Progress α) : Progress α :=
  p.write [.eraseBootconfig bcname, .bootconfig bcname (p.bootInfo bcname)]

/-- `platform_do_upgrade` -/
def platformDoUpgrade (board : Board) (sections : List String) (p : Progress α) : Progress α :=
  if board.sysupgrade then
    let p := sections.foldl (b.flashSection image board) p
    (b.getAlternateBootconfig p.bootInfo).foldl (fun p bcname => doFlashBootconfig bcname p) p
  else p

end Flash

/-! ### Ages -/

section Age

variable {α : Type*}

/-- The age of a configuration is written to memory and to flash. -/
def raiseAge (which : Bool) (age : ℤ) (p : Progress α) : Progress α :=
  doFlashBootconfig which (p.update which ((p.bootInfo which).ageWrite age))

/-- `age_do_upgrade` -/
def ageDoUpgrade (p : Progress α) : Progress α :=
  let age0 := (p.bootInfo false).ageShow
  let age1 := (p.bootInfo true).ageShow
  if b.trybit then
    if age0 = age1 then raiseAge false (age0 + 1) p
    else if age0 < age1 then raiseAge false (age0 + 2) p
    else raiseAge true (age1 + 2) p
  else p

/-- `commit_bootconfig` -/
def commitBootconfig (which : Bool) (p : Progress α) : Progress α :=
  let age0 := (p.bootInfo false).ageShow
  let age1 := (p.bootInfo true).ageShow
  match which with
  | false => if age0 ≤ age1 then raiseAge false (age1 + 1) p else p
  | true => if age1 ≤ age0 then raiseAge true (age0 + 1) p else p

end Age

end Boot

end TurrisBuild.Upgrade
