import Mathlib.Data.Finset.Union
import Mathlib.Data.Finset.Insert

/-!
# The SFP port driver

The state and the entry points of `sfp_phy.c` with both patches applied, for one
cage. The upstream PHY is the one that the switch port sees. A module may bring a
PHY of its own, whose state the driver then copies into `link_config`.
-/

namespace TurrisBuild.Sfp

/-- The bits of a link-mode mask that the driver names. -/
inductive LinkMode
  | full10000baseCR | full10000baseT | full10000baseKR | full10000baseSR | full10000baseLR
  | full2500baseX | full2500baseT
  | full1000baseT | full1000baseX
  | tp | aui | mii | fibre | bnc | backplane
  | autoneg | pause | asymPause
  | other (bit : ℕ)
  deriving DecidableEq

/-- `__ETHTOOL_DECLARE_LINK_MODE_MASK` -/
abbrev LinkModes := Finset LinkMode

/-- `phy_interface_t`, with the modes that the driver names. -/
inductive Interface
  | modeNa | modeUsxgmii | mode10gbaser | mode2500basex | modeSgmii | mode1000basex
  | modeOther (mode : ℕ)
  deriving DecidableEq

/-- A negative error code. -/
inductive Errno
  | einval | emediumtype
  | other (code : ℕ)
  deriving DecidableEq

/-- The fields of `struct phylink_link_state` that the driver uses. -/
structure LinkState where
  advertising : LinkModes
  interface : Interface
  speed : ℤ
  duplex : ℤ
  link : Bool
  deriving DecidableEq

/-- The fields of a module's PHY that the driver uses. The last two say whether
its hooks lead to the driver. -/
structure Phy where
  supported : LinkModes
  advertising : LinkModes
  hostInterfaces : Finset Interface
  interface : Interface
  link : Bool
  speed : ℤ
  duplex : ℤ
  phylink : Bool
  phyLinkChange : Bool
  deriving DecidableEq

/-- What a PHY reports when it is read. -/
structure PhyStatus where
  interface : Interface
  link : Bool
  speed : ℤ
  duplex : ℤ

/-- The fields of the upstream PHY that the driver uses. -/
structure Upstream where
  supported : LinkModes
  advertising : LinkModes
  link : Bool
  speed : ℤ
  duplex : ℤ
  deriving DecidableEq

/-- `struct sfp_priv` together with its upstream PHY. -/
structure Port where
  sfpSupport : LinkModes
  sfpInterfaces : Finset Interface
  sfpMayHavePhy : Bool
  linkConfig : LinkState
  forceLinkDownOnce : Bool
  supported : LinkModes
  phydev : Option Phy
  modulePresent : Bool
  upstream : Upstream
  deriving DecidableEq

/-- What the SFP core reads from the EEPROM of a module. -/
structure Module where
  support : LinkModes
  interfaces : Finset Interface
  mayHavePhy : Bool

/-- The kernel functions that decide about a module's PHY. -/
structure Kernel where
  /-- `phylink_validate_mask_caps`, as the masks it leaves in its arguments. -/
  validateMaskCaps : LinkModes → LinkState → LinkModes × LinkModes
  /-- `sfp_select_interface` -/
  selectInterface : LinkModes → Interface

/-- `sfp_interface_preference` -/
def interfacePreference : List Interface :=
  [.modeUsxgmii, .mode10gbaser, .mode2500basex, .modeSgmii, .mode1000basex]

/-- `sfp_iface_to_speed` -/
def ifaceToSpeed : Interface → ℤ
  | .modeUsxgmii => 10000
  | .mode10gbaser => 10000
  | .mode2500basex => 2500
  | .modeSgmii => 1000
  | .mode1000basex => 1000
  | _ => 1000

/-- The interfaces that `sfp_module_config_optical` derives from a mask. -/
def opticalModes (advertising : LinkModes) : Finset Interface :=
  (if .full10000baseCR ∈ advertising ∨ .full10000baseT ∈ advertising ∨
      .full10000baseKR ∈ advertising ∨ .full10000baseSR ∈ advertising ∨
      .full10000baseLR ∈ advertising then {.mode10gbaser} else ∅) ∪
  (if .full2500baseX ∈ advertising ∨ .full2500baseT ∈ advertising
    then {.mode2500basex} else ∅) ∪
  (if .full1000baseT ∈ advertising ∨ .full1000baseX ∈ advertising
    then {.mode1000basex} else ∅)

/-- The first of the interfaces in the order of preference. -/
def firstPreferred (interfaces : Finset Interface) : Option Interface :=
  interfacePreference.find? (· ∈ interfaces)

/-- `sfp_module_config_optical` -/
def moduleConfigOptical (pl : Port) (advertising : LinkModes) : Port × Option Errno :=
  if opticalModes advertising = ∅ then (pl, some .einval)
  else
    match firstPreferred (opticalModes advertising) with
    | some interface =>
      ({ pl with
          linkConfig := { pl.linkConfig with
            interface := interface, speed := ifaceToSpeed interface, duplex := 1 }
          forceLinkDownOnce := true }, none)
    | none => (pl, none)

section ConfigOptical

variable (pl : Port) (advertising : LinkModes)

/-- The function only ever writes a mode into `link_config` and asks for a link down. -/
theorem moduleConfigOptical_cases :
    (moduleConfigOptical pl advertising).1 = pl ∨
      ∃ interface, (moduleConfigOptical pl advertising).1 =
        { pl with
          linkConfig := { pl.linkConfig with
            interface := interface, speed := ifaceToSpeed interface, duplex := 1 }
          forceLinkDownOnce := true } := by
  unfold moduleConfigOptical
  split
  · exact .inl rfl
  · split
    · exact .inr ⟨_, rfl⟩
    · exact .inl rfl

/-- The module is present as before. -/
@[simp] theorem moduleConfigOptical_modulePresent :
    (moduleConfigOptical pl advertising).1.modulePresent = pl.modulePresent := by
  obtain h | ⟨_, h⟩ := moduleConfigOptical_cases pl advertising <;> rw [h]

/-- The PHY of the port is the same. -/
@[simp] theorem moduleConfigOptical_phydev :
    (moduleConfigOptical pl advertising).1.phydev = pl.phydev := by
  obtain h | ⟨_, h⟩ := moduleConfigOptical_cases pl advertising <;> rw [h]

/-- The link is reported as before. -/
@[simp] theorem moduleConfigOptical_link :
    (moduleConfigOptical pl advertising).1.linkConfig.link = pl.linkConfig.link := by
  obtain h | ⟨_, h⟩ := moduleConfigOptical_cases pl advertising <;> rw [h]

/-- The modes of the port are the same. -/
@[simp] theorem moduleConfigOptical_sfpSupport :
    (moduleConfigOptical pl advertising).1.sfpSupport = pl.sfpSupport := by
  obtain h | ⟨_, h⟩ := moduleConfigOptical_cases pl advertising <;> rw [h]

/-- The upstream of the port is the same. -/
@[simp] theorem moduleConfigOptical_upstream :
    (moduleConfigOptical pl advertising).1.upstream = pl.upstream := by
  obtain h | ⟨_, h⟩ := moduleConfigOptical_cases pl advertising <;> rw [h]

/-- A configuration is refused for a mask without a speed. -/
theorem moduleConfigOptical_result_iff :
    (moduleConfigOptical pl advertising).2 = none ↔ opticalModes advertising ≠ ∅ := by
  unfold moduleConfigOptical
  split
  next hempty => simp [hempty]
  next hspeeds => split <;> simp [hspeeds]

end ConfigOptical

/-- `sfp_module_insert` -/
def moduleInsert (pl : Port) (m : Module) : Port × Option Errno :=
  let pl := { pl with
    modulePresent := true, sfpSupport := m.support, sfpInterfaces := m.interfaces,
    sfpMayHavePhy := m.mayHavePhy }
  if m.mayHavePhy then (pl, none)
  else
    let pl := { pl with upstream := { pl.upstream with
      supported := m.support, advertising := m.support } }
    moduleConfigOptical pl pl.upstream.advertising

/-- `sfp_module_start` -/
def moduleStart (pl : Port) : Port × Option Errno :=
  if pl.phydev.isSome then (pl, none)
  else if !pl.sfpMayHavePhy then (pl, none)
  else moduleConfigOptical pl pl.upstream.advertising

/-- `sfp_module_remove` -/
def moduleRemove (pl : Port) : Port := { pl with modulePresent := false }

/-- `sfp_module_link_down` -/
def moduleLinkDown (pl : Port) : Port :=
  { pl with linkConfig := { pl.linkConfig with link := false } }

/-- `sfp_module_link_up` -/
def moduleLinkUp (pl : Port) : Port :=
  if pl.phydev.isSome then pl
  else { pl with linkConfig := { pl.linkConfig with
    link := true, speed := ifaceToSpeed pl.linkConfig.interface, duplex := 1 } }

/-- `is_empty_linkmode` -/
def isEmptyLinkmode (modes : LinkModes) : Bool :=
  modes ⊆ {.tp, .aui, .mii, .fibre, .bnc, .backplane, .autoneg, .pause, .asymPause}

section Kernel

variable (k : Kernel)

/-- One round of the loop in `validate`: the masks for an interface, unless the
first of them is empty. -/
def validateInterface (supported : LinkModes) (state : LinkState) (interface : Interface) :
    LinkModes × LinkModes :=
  let masks := k.validateMaskCaps supported { state with interface := interface }
  if isEmptyLinkmode masks.1 then (∅, ∅) else masks

/-- `validate`, as the masks it leaves in its arguments. -/
def validate (supported : LinkModes) (interfaces : Finset Interface) (state : LinkState) :
    LinkModes × LinkModes :=
  (interfaces.biUnion fun i => (validateInterface k supported state i).1,
    interfaces.biUnion fun i => (validateInterface k supported state i).2)

/-- `sfp_set_config` -/
def setConfig (pl : Port) (supported : LinkModes) (state : LinkState) : Port :=
  { pl with
    supported := supported
    linkConfig := { pl.linkConfig with
      advertising := state.advertising, interface := state.interface } }

/-- What `sfp_module_connect_phy` leaves behind. -/
structure Connection where
  port : Port
  phy : Phy
  result : Option Errno

/-- `sfp_module_connect_phy`, with the result of `phy_init_hw`. -/
def moduleConnectPhy (pl : Port) (phy : Phy) (initHw : Option Errno) : Connection :=
  let phy := { phy with hostInterfaces := phy.hostInterfaces ∪ interfacePreference.toFinset }
  let config : LinkState := ⟨phy.advertising, .modeNa, -1, 255, false⟩
  let masks := validate k phy.supported phy.hostInterfaces config
  if isEmptyLinkmode masks.1 then ⟨pl, phy, some .emediumtype⟩
  else
    let config := { config with
      advertising := masks.2, interface := k.selectInterface masks.2 }
    if config.interface = .modeNa then ⟨pl, phy, some .einval⟩
    else
      let narrowed := k.validateMaskCaps masks.1 config
      if isEmptyLinkmode narrowed.1 then ⟨pl, phy, some .einval⟩
      else
        let pl := setConfig pl masks.1 { config with advertising := narrowed.2 }
        let phy := { phy with
          interface := config.interface, phylink := true, phyLinkChange := true }
        match initHw with
        | some err => ⟨pl, phy, some err⟩
        | none =>
          ⟨{ pl with
              phydev := some phy
              upstream := { pl.upstream with
                supported := phy.supported, advertising := phy.advertising } }, phy, none⟩

/-- A PHY is attached exactly when it is not refused. The module, the stored link
and the stored speed stay what they are. -/
theorem moduleConnectPhy_spec (pl : Port) (phy : Phy) (initHw : Option Errno) :
    (moduleConnectPhy k pl phy initHw).port.modulePresent = pl.modulePresent ∧
      (moduleConnectPhy k pl phy initHw).port.linkConfig.link = pl.linkConfig.link ∧
      (moduleConnectPhy k pl phy initHw).port.sfpSupport = pl.sfpSupport ∧
      (moduleConnectPhy k pl phy initHw).port.linkConfig.speed = pl.linkConfig.speed ∧
      if (moduleConnectPhy k pl phy initHw).result = none
      then (moduleConnectPhy k pl phy initHw).port.phydev ≠ none
      else (moduleConnectPhy k pl phy initHw).port.phydev = pl.phydev := by
  unfold moduleConnectPhy
  simp only
  split
  · simp
  · split
    · simp
    · split
      · simp
      · cases initHw <;> simp [setConfig]

/-- A PHY that is refused does not touch the upstream PHY. -/
theorem moduleConnectPhy_upstream {pl : Port} {phy : Phy} {initHw : Option Errno}
    (hrefused : (moduleConnectPhy k pl phy initHw).result ≠ none) :
    (moduleConnectPhy k pl phy initHw).port.upstream = pl.upstream := by
  revert hrefused
  unfold moduleConnectPhy
  simp only
  split
  · simp
  · split
    · simp
    · split
      · simp
      · cases initHw <;> simp [setConfig]

end Kernel

/-- `sfp_phy_link_change` -/
def phyLinkChange (pl : Port) (phydev : PhyStatus) (up : Bool) : Port :=
  { pl with linkConfig := { pl.linkConfig with
    link := up, speed := phydev.speed, duplex := phydev.duplex, interface := phydev.interface } }

/-- `phy_stop` on a module's PHY. It may report the link as down on its way. -/
def phyStop (pl : Port) (report : Option PhyStatus) : Port :=
  match report with
  | some phydev => phyLinkChange pl phydev false
  | none => pl

/-- The module is present as before. -/
@[simp] theorem phyStop_modulePresent (pl : Port) (report : Option PhyStatus) :
    (phyStop pl report).modulePresent = pl.modulePresent := by
  cases report <;> rfl

/-- `sfp_module_stop` -/
def moduleStop (pl : Port) (report : Option PhyStatus) : Port :=
  if pl.phydev.isSome then phyStop pl report else pl

/-- `sfp_module_disconnect_phy`. The report is missing if the PHY is not started. -/
def moduleDisconnectPhy (pl : Port) (report : Option PhyStatus) : Port :=
  phyStop { pl with phydev := none } report

/-- `sfp_phy_config_aneg`, with the result of `phy_start_aneg`. -/
def phyConfigAneg (pl : Port) (startAneg : Option Errno) : Port × Option Errno :=
  if !pl.modulePresent then (pl, none)
  else
    match pl.phydev with
    | some phy =>
      ({ pl with phydev := some { phy with
          advertising := pl.upstream.advertising ∩ phy.supported } }, startAneg)
    | none =>
      let pl := { pl with upstream := { pl.upstream with
        advertising := pl.upstream.advertising ∩ pl.sfpSupport } }
      moduleConfigOptical pl pl.upstream.advertising

/-- The PHY with the fields that `phy_read_status` sets. -/
def Phy.update (phy : Phy) (status : PhyStatus) : Phy :=
  { phy with
    interface := status.interface, link := status.link, speed := status.speed,
    duplex := status.duplex }

/-- `sfp_read_status`, with what a module's PHY answers if it answers at all. -/
def readStatus (pl : Port) (answer : Option PhyStatus) : Port :=
  let pl :=
    match pl.phydev, answer with
    | some inner, some status =>
      phyLinkChange { pl with phydev := some (inner.update status) } status status.link
    | _, _ => pl
  { pl with upstream := { pl.upstream with
    link := pl.linkConfig.link, speed := pl.linkConfig.speed, duplex := pl.linkConfig.duplex } }

/-- `struct port_phy_status` -/
structure PortPhyStatus where
  linkStatus : Bool
  speed : ℤ
  duplex : ℤ
  deriving DecidableEq

/-- `sfp_phy_port_status_get` -/
def phyPortStatusGet (pl : Port) : Port × PortPhyStatus :=
  let up := pl.modulePresent && pl.linkConfig.link
  if up && pl.forceLinkDownOnce then
    ({ pl with forceLinkDownOnce := false },
      ⟨false, pl.linkConfig.speed, pl.linkConfig.duplex⟩)
  else (pl, ⟨up, pl.linkConfig.speed, pl.linkConfig.duplex⟩)

/-- `sfp_phy_interface_get_mode_status`, with what its argument holds before. -/
def phyInterfaceGetModeStatus (pl : Port) (interfaceModeStatus : Interface) : Interface :=
  if pl.linkConfig.link then pl.linkConfig.interface else interfaceModeStatus

end TurrisBuild.Sfp
