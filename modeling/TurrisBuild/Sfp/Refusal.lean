import TurrisBuild.Sfp.Session

/-!
# Refused modules

The core takes back neither a module that `sfp_module_insert` refuses nor a PHY
that `sfp_module_connect_phy` refuses, so that whatever these calls wrote before
they failed stays. The first one marks the module as present before it looks at
it, and the second one configures the port before the PHY is initialized.
-/

namespace TurrisBuild.Sfp

/-- A refused module leaves the mark of a present module as it was. -/
def InsertLeavesNoTrace (pl : Port) (m : Module) : Prop :=
  (moduleInsert pl m).2 ≠ none → (moduleInsert pl m).1.modulePresent = pl.modulePresent

/-- What a module's PHY is to be run with. -/
structure Choice where
  supported : LinkModes
  advertising : LinkModes
  interface : Interface

variable (k : Kernel)

/-- The checks of `sfp_module_connect_phy`: the error of the first one that fails,
or what the port would be configured with. -/
def choose (phy : Phy) : Except Errno Choice :=
  let config : LinkState := ⟨phy.advertising, .modeNa, -1, 255, false⟩
  let masks := validate k phy.supported
    (phy.hostInterfaces ∪ interfacePreference.toFinset) config
  if isEmptyLinkmode masks.1 then .error .emediumtype
  else
    let interface := k.selectInterface masks.2
    if interface = .modeNa then .error .einval
    else
      let narrowed := k.validateMaskCaps masks.1
        { config with advertising := masks.2, interface := interface }
      if isEmptyLinkmode narrowed.1 then .error .einval
      else .ok ⟨masks.1, narrowed.2, interface⟩

/-- A refused PHY leaves the port and its own hooks as they were. -/
def ConnectLeavesNoTrace (pl : Port) (phy : Phy) (initHw : Option Errno) : Prop :=
  (moduleConnectPhy k pl phy initHw).result ≠ none →
    (moduleConnectPhy k pl phy initHw).port.supported = pl.supported ∧
      (moduleConnectPhy k pl phy initHw).port.linkConfig = pl.linkConfig ∧
      (moduleConnectPhy k pl phy initHw).port.phydev = pl.phydev ∧
      (moduleConnectPhy k pl phy initHw).phy.phylink = phy.phylink ∧
      (moduleConnectPhy k pl phy initHw).phy.phyLinkChange = phy.phyLinkChange

/-- The port is configured already as the PHY needs it, and the hooks of the PHY
lead to the driver. -/
def Configured (pl : Port) (phy : Phy) (c : Choice) : Prop :=
  (pl.supported = c.supported ∧ pl.linkConfig.advertising = c.advertising ∧
    pl.linkConfig.interface = c.interface) ∧ phy.phylink = true ∧ phy.phyLinkChange = true

/-- The port is configured and the hooks of the PHY are set when the checks are
passed, before the PHY is initialized. -/
theorem moduleConnectPhy_eq (pl : Port) (phy : Phy) (initHw : Option Errno) :
    moduleConnectPhy k pl phy initHw =
      match choose k phy with
      | .error err =>
        ⟨pl, { phy with hostInterfaces := phy.hostInterfaces ∪ interfacePreference.toFinset },
          some err⟩
      | .ok c =>
        let pl := setConfig pl c.supported ⟨c.advertising, c.interface, -1, 255, false⟩
        let phy := { phy with
          hostInterfaces := phy.hostInterfaces ∪ interfacePreference.toFinset
          interface := c.interface
          phylink := true
          phyLinkChange := true }
        match initHw with
        | some err => ⟨pl, phy, some err⟩
        | none =>
          ⟨{ pl with
              phydev := some phy
              upstream := { pl.upstream with
                supported := phy.supported, advertising := phy.advertising } }, phy, none⟩ := by
  simp only [moduleConnectPhy, choose]
  split
  · rfl
  · split
    · rfl
    · split
      · rfl
      · rfl

/-- A module is refused if it can have no PHY and has no speed that the driver knows. -/
theorem insertLeavesNoTrace_iff (pl : Port) (m : Module) :
    InsertLeavesNoTrace pl m ↔
      (pl.modulePresent = false → m.mayHavePhy = true ∨ opticalModes m.support ≠ ∅) := by
  unfold InsertLeavesNoTrace
  cases hmay : m.mayHavePhy with
  | true => simp [moduleInsert, hmay]
  | false =>
    simp only [moduleInsert, hmay, Bool.false_eq_true, if_false, false_or,
      moduleConfigOptical_modulePresent, Ne, moduleConfigOptical_result_iff]
    cases pl.modulePresent <;> simp

/-- A PHY that passes the checks and fails to be initialized leaves the port as it
was only if it was configured for the PHY already. -/
theorem connectLeavesNoTrace_iff (pl : Port) (phy : Phy) (initHw : Option Errno) :
    ConnectLeavesNoTrace k pl phy initHw ↔
      (initHw ≠ none → ∀ c, choose k phy = .ok c → Configured pl phy c) := by
  unfold ConnectLeavesNoTrace
  rw [moduleConnectPhy_eq]
  cases hchoose : choose k phy with
  | error err => simp
  | ok c =>
    cases initHw with
    | none => simp
    | some err =>
      rcases hlink : pl.linkConfig with ⟨advertising, interface, speed, duplex, link⟩
      simp only [setConfig, hlink, Configured, LinkState.mk.injEq, Except.ok.injEq, ne_eq,
        reduceCtorEq, not_false_eq_true, true_imp_iff, forall_eq', and_true, true_and]
      constructor
      · rintro ⟨hsupported, ⟨hadvertising, hinterface⟩, hphylink, hchange⟩
        exact ⟨⟨hsupported.symm, hadvertising.symm, hinterface.symm⟩, hphylink.symm, hchange.symm⟩
      · rintro ⟨⟨hsupported, hadvertising, hinterface⟩, hphylink, hchange⟩
        exact ⟨hsupported.symm, ⟨hadvertising.symm, hinterface.symm⟩, hphylink.symm, hchange.symm⟩

/-- **Refusals leave no trace.** A refused module leaves the port as empty as it was
exactly when it is not refused in an empty port, and a refused PHY leaves port and
hooks as they were exactly when it fails a check, or the port was configured for it
already. -/
theorem refusal_traceless_iff (pl : Port) (m : Module) (phy : Phy) (initHw : Option Errno) :
    (InsertLeavesNoTrace pl m ↔
      (pl.modulePresent = false → m.mayHavePhy = true ∨ opticalModes m.support ≠ ∅)) ∧
    (ConnectLeavesNoTrace k pl phy initHw ↔
      (initHw ≠ none → ∀ c, choose k phy = .ok c → Configured pl phy c)) :=
  ⟨insertLeavesNoTrace_iff pl m, connectLeavesNoTrace_iff k pl phy initHw⟩

/-- An optical module of a speed that the driver does not know. -/
def fxModule : Module := ⟨{.fibre, .other 91}, ∅, false⟩

/-- A kernel that takes every PHY for 1000BASE-T. -/
def gigabitKernel : Kernel :=
  ⟨fun supported state => (supported, state.advertising), fun _ => .modeSgmii⟩

/-- The PHY of a module for 1000BASE-T. -/
def gigabitPhy : Phy where
  supported := {.full1000baseT}
  advertising := {.full1000baseT}
  hostInterfaces := ∅
  interface := .modeNa
  link := false
  speed := 0
  duplex := 0
  phylink := false
  phyLinkChange := false

/-- The refused module counts as present, and the PHY that does not come up leaves
its mode and its hooks behind. -/
theorem refused_traces :
    (moduleInsert (.probed idleUpstream) fxModule).2 = some .einval ∧
    ¬InsertLeavesNoTrace (.probed idleUpstream) fxModule ∧
    (moduleConnectPhy gigabitKernel (.probed idleUpstream) gigabitPhy (some (.other 5))).result =
      some (.other 5) ∧
    ¬ConnectLeavesNoTrace gigabitKernel (.probed idleUpstream) gigabitPhy (some (.other 5)) := by
  refine ⟨by decide, ?_, by decide, ?_⟩
  · unfold InsertLeavesNoTrace
    decide
  · unfold ConnectLeavesNoTrace
    decide

end TurrisBuild.Sfp
