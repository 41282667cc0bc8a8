import TurrisBuild.Sfp.OpticalMode

/-!
# Configuration of the advertisement

phylib stops a port for good when `sfp_phy_config_aneg` fails. The driver returns
0 while no module is present, but it takes a module as present before it looks at
what the module supports, and it takes over every bit of a mask although only
some of them stand for a speed.
-/

namespace TurrisBuild.Sfp

/-- Without a module PHY no advertisement of supported modes makes the port fail. -/
def NeverHalts (s : Session) : Prop :=
  s.port.phydev = none → ∀ advertising ⊆ s.port.upstream.supported, advertising.Nonempty →
    ∀ startAneg, (phyConfigAneg { s.port with upstream := { s.port.upstream with
      advertising := advertising } } startAneg).2 = none

/-- Every one of the modes is a speed that the module supports. -/
def Speeds (modes support : LinkModes) : Prop :=
  ∀ mode ∈ modes, mode ∈ support ∧ opticalModes {mode} ≠ ∅

instance (modes support : LinkModes) : Decidable (Speeds modes support) :=
  inferInstanceAs (Decidable (∀ mode ∈ modes, _))

/-- A module that comes or loses its PHY supports, as a speed, all that the port
supports then. -/
def Configurable (s : Session) : Event → Prop
  | .moduleInsert m => s.port.phydev = none →
    Speeds (if m.mayHavePhy then s.port.upstream.supported else m.support) m.support
  | .disconnectPhy _ => s.port.modulePresent = true →
    Speeds s.port.upstream.supported s.port.sfpSupport
  | _ => True

/-! ### When the configuration fails -/

/-- Every mask of supported modes has a speed of the module exactly when every
supported mode is one. -/
theorem speeds_iff (modes support : LinkModes) :
    Speeds modes support ↔
      ∀ advertising ⊆ modes, advertising.Nonempty → opticalModes (advertising ∩ support) ≠ ∅ := by
  constructor
  · rintro hspeeds advertising hsub ⟨mode, hmode⟩ hempty
    obtain ⟨hsupport, hspeed⟩ := hspeeds mode (hsub hmode)
    have hmem : {mode} ⊆ advertising ∩ support := by simp [hmode, hsupport]
    exact hspeed (Finset.subset_empty.mp (hempty ▸ opticalModes_mono hmem))
  · intro h mode hmode
    have hsingle := h {mode} (by simpa using hmode) (by simp)
    by_cases hsupport : mode ∈ support
    · rw [Finset.singleton_inter_of_mem hsupport] at hsingle
      exact ⟨hsupport, hsingle⟩
    · rw [Finset.singleton_inter_of_notMem hsupport] at hsingle
      exact absurd (by decide) hsingle

/-- What the property says about the state of the driver. -/
theorem neverHalts_iff (s : Session) :
    NeverHalts s ↔ (s.port.phydev = none → s.port.modulePresent = true →
      Speeds s.port.upstream.supported s.port.sfpSupport) := by
  refine imp_congr_right fun hphy => ?_
  cases hpresent : s.port.modulePresent with
  | false => simp [phyConfigAneg, hpresent]
  | true =>
    rw [speeds_iff]
    simp [phyConfigAneg, hpresent, hphy, moduleConfigOptical_result_iff]

/-- **One event.** A permitted event keeps the port from failing exactly when the
module fits what the port supports. -/
theorem step_neverHalts_iff {k : Kernel} {s : Session} {e : Event} (hs : NeverHalts s)
    (hlegal : Legal s e) : NeverHalts (step k s e) ↔ Configurable s e := by
  rw [neverHalts_iff] at hs ⊢
  cases e with
  | moduleInsert m =>
    cases hmay : m.mayHavePhy with
    | true => simp [step, moduleInsert, Configurable, hmay]
    | false => simp [step, moduleInsert, Configurable, hmay]
  | moduleStart =>
    simp only [step, moduleStart, Configurable, iff_true]
    split
    · exact hs
    · split
      · exact hs
      · simpa using hs
  | moduleStop report =>
    simp only [step, moduleStop, Configurable, iff_true]
    split
    · cases report <;> exact hs
    · exact hs
  | moduleRemove => simp [step, moduleRemove, Configurable]
  | linkUp =>
    simp only [step, moduleLinkUp, Configurable, iff_true]
    split <;> exact hs
  | linkDown => simpa [step, moduleLinkDown, Configurable] using hs
  | connectPhy phy initHw =>
    obtain ⟨hpresent, -, hsupport, -, hphy⟩ := moduleConnectPhy_spec k s.port phy initHw
    simp only [step, Configurable, iff_true]
    split at hphy
    next hok => exact fun h => absurd h hphy
    next hrefused =>
      rw [hphy, hpresent, hsupport, moduleConnectPhy_upstream k hrefused]
      exact hs
  | disconnectPhy report =>
    cases report <;> simp [step, moduleDisconnectPhy, phyStop, phyLinkChange, Configurable]
  | deviceUp => simpa [step, Configurable] using hs
  | deviceDown => simpa [step, Configurable] using hs
  | setAdvertising advertising => simpa [step, Configurable] using hs
  | configAneg startAneg =>
    simp only [step, phyConfigAneg, Configurable, iff_true]
    split
    · exact hs
    · split
      next hphy => simp
      next hphy => simpa using hs
  | readStatus answer =>
    simp only [step, readStatus, Configurable, iff_true]
    split
    next hphy => simp [phyLinkChange]
    next => exact hs
  | portStatusGet =>
    simp only [step, phyPortStatusGet, Configurable, iff_true]
    split <;> exact hs
  | phyReport phydev up => simpa [step, phyLinkChange, Configurable] using hs

/-- **The port is never halted.** Along every permitted run from the probe, no
advertisement of supported modes makes the configuration fail in any state
exactly when every module fits what the port supports. -/
theorem config_aneg_never_halts_iff {k : Kernel} {upstream : Upstream} {deviceUp : Bool}
    {events : List Event}
    (hlegal : Runs.Along (step k) Legal (Session.start upstream deviceUp) events) :
    (∀ t ∈ Runs.states (step k) (Session.start upstream deviceUp) events, NeverHalts t) ↔
      Runs.Along (step k) Configurable (Session.start upstream deviceUp) events := by
  refine Runs.forall_states_iff_along (fun s e => step_neverHalts_iff) ?_ hlegal
  simp [neverHalts_iff, Session.start, Port.probed]

/-- A module of speeds only, plugged and taken out again. -/
theorem plain_module_never_halts :
    Runs.Along (step refusingKernel) Legal (Session.start idleUpstream true)
      [.moduleInsert tenGigModule, .moduleStart, .moduleRemove] ∧
    ∀ t ∈ Runs.states (step refusingKernel) (Session.start idleUpstream true)
      [.moduleInsert tenGigModule, .moduleStart, .moduleRemove], NeverHalts t := by
  have hlegal : Runs.Along (step refusingKernel) Legal (Session.start idleUpstream true)
      [.moduleInsert tenGigModule, .moduleStart, .moduleRemove] := by
    simp only [Runs.along_cons, Runs.along_nil, Legal]
    decide
  refine ⟨hlegal, (config_aneg_never_halts_iff hlegal).mpr ?_⟩
  simp only [Runs.along_cons, Runs.along_nil, Configurable]
  decide

/-- A 100BASE-FX module, which `sfp_module_insert` rejects. -/
def slowModule : Module := ⟨{.fibre, .other 91}, ∅, false⟩

/-- The rejected module stays present, as the core does not remove it, and the next
configuration fails. -/
theorem rejected_module_halts :
    (moduleInsert (.probed idleUpstream) slowModule).2 = some .einval ∧
    Runs.Along (step refusingKernel) Legal (Session.start idleUpstream true)
      [.moduleInsert slowModule] ∧
    ¬ ∀ t ∈ Runs.states (step refusingKernel) (Session.start idleUpstream true)
      [.moduleInsert slowModule], NeverHalts t := by
  refine ⟨by decide, by simp [Legal], ?_⟩
  simp only [neverHalts_iff]
  decide

end TurrisBuild.Sfp
