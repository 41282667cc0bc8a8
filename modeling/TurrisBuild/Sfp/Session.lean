import TurrisBuild.Lib.Runs
import TurrisBuild.Sfp.Driver

/-!
# Runs of the SFP port

The SFP core calls the driver as modules and the network device come and go, and
phylib polls it in between. A session holds the port, the part of the core's
state that restricts its calls, and a record of the optical mode that was last
configured for the module in the cage.
-/

namespace TurrisBuild.Sfp

/-- The port, the core's view of it and the last optical configuration. -/
structure Session where
  port : Port
  /-- A module was inserted successfully and is not removed. -/
  inserted : Bool
  /-- The core's own link state. -/
  linkUp : Bool
  /-- The network device is up. -/
  deviceUp : Bool
  /-- The mask that `module_insert`, `module_start` or `config_aneg` last turned
  into an optical mode of the current module. -/
  configured : Option LinkModes

/-- What can happen to a port. -/
inductive Event
  | moduleInsert (m : Module)
  | moduleStart
  | moduleStop (report : Option PhyStatus)
  | moduleRemove
  | linkUp
  | linkDown
  | connectPhy (phy : Phy) (initHw : Option Errno)
  | disconnectPhy (report : Option PhyStatus)
  /-- The network device is opened or closed. On closing, the core drops its link
  state without a call of `link_down`. -/
  | deviceUp
  | deviceDown
  /-- The advertisement is changed by `ethtool`. -/
  | setAdvertising (advertising : LinkModes)
  | configAneg (startAneg : Option Errno)
  | readStatus (answer : Option PhyStatus)
  | portStatusGet
  /-- The state machine of a module's PHY reports its link by itself. -/
  | phyReport (phydev : PhyStatus) (up : Bool)

/-- What the core promises about its calls. -/
def Legal (s : Session) : Event → Prop
  | .moduleRemove => s.inserted = true
  | .linkDown => s.linkUp = true ∧ s.deviceUp = true
  | .connectPhy _ _ => s.port.phydev = none
  | .disconnectPhy _ => s.port.phydev ≠ none
  | .phyReport _ _ => s.port.phydev ≠ none
  | _ => True

/-- A configuration stands only if the call returned 0 with a module in place. -/
def record (pl : Port) (advertising : LinkModes) (result : Option Errno) : Option LinkModes :=
  if pl.modulePresent ∧ result = none then some advertising else none

variable (k : Kernel)

/-- One event of a session. -/
def step (s : Session) : Event → Session
  | .moduleInsert m =>
    let out := moduleInsert s.port m
    { s with
      port := out.1
      inserted := s.inserted || out.2 = none
      configured := if m.mayHavePhy then none else record out.1 m.support out.2 }
  | .moduleStart =>
    let out := moduleStart s.port
    { s with
      port := out.1
      configured :=
        if s.port.phydev ≠ none then none
        else if s.port.sfpMayHavePhy = false then s.configured
        else record out.1 s.port.upstream.advertising out.2 }
  | .moduleStop report => { s with port := moduleStop s.port report }
  | .moduleRemove =>
    { s with port := moduleRemove s.port, inserted := false, configured := none }
  | .linkUp => { s with port := moduleLinkUp s.port, linkUp := true }
  | .linkDown => { s with port := moduleLinkDown s.port, linkUp := false }
  | .connectPhy phy initHw => { s with port := (moduleConnectPhy k s.port phy initHw).port }
  | .disconnectPhy report => { s with port := moduleDisconnectPhy s.port report }
  | .deviceUp => { s with deviceUp := true }
  | .deviceDown => { s with deviceUp := false, linkUp := false }
  | .setAdvertising advertising =>
    { s with port := { s.port with upstream := { s.port.upstream with
      advertising := advertising } } }
  | .configAneg startAneg =>
    let out := phyConfigAneg s.port startAneg
    { s with
      port := out.1
      configured :=
        if s.port.modulePresent = false then s.configured
        else if s.port.phydev ≠ none then none
        else record out.1 out.1.upstream.advertising out.2 }
  | .readStatus answer => { s with port := readStatus s.port answer }
  | .portStatusGet => { s with port := (phyPortStatusGet s.port).1 }
  | .phyReport phydev up => { s with port := phyLinkChange s.port phydev up }

/-- The port after `sfp_phy_probe`: the private data is static and still zero. -/
def Port.probed (upstream : Upstream) : Port where
  sfpSupport := ∅
  sfpInterfaces := ∅
  sfpMayHavePhy := false
  linkConfig := ⟨∅, .modeNa, 0, 0, false⟩
  forceLinkDownOnce := false
  supported := ∅
  phydev := none
  modulePresent := false
  upstream := upstream

/-- The session that starts with the probe. -/
def Session.start (upstream : Upstream) (deviceUp : Bool) : Session where
  port := .probed upstream
  inserted := false
  linkUp := false
  deviceUp := deviceUp
  configured := none

/-- A kernel that refuses every PHY. -/
def refusingKernel : Kernel := ⟨fun _ _ => (∅, ∅), fun _ => .modeNa⟩

/-- The upstream PHY before anything happens. -/
def idleUpstream : Upstream := ⟨∅, ∅, false, 0, 0⟩

end TurrisBuild.Sfp
