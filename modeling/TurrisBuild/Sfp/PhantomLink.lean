import TurrisBuild.Sfp.Session

/-!
# Phantom links

A port without a module should report its link as down. The driver clears the
link only when the core tells it to, and `sfp_read_status` passes on whatever is
stored, so that the order of the core's calls decides.
-/

namespace TurrisBuild.Sfp

/-- Both reporters say that the link is down, whatever a module's PHY answers. -/
def ReportsDown (pl : Port) : Prop :=
  (∀ answer, (readStatus pl answer).upstream.link = false) ∧
    (phyPortStatusGet pl).2.linkStatus = false

/-- A port without a module reports its link as down. -/
def NoPhantomLink (s : Session) : Prop :=
  s.port.modulePresent = false → ReportsDown s.port

/-- The core takes a module out after its link and its PHY, and brings up neither
without a module. -/
def Orderly (k : Kernel) (s : Session) : Event → Prop
  | .moduleRemove => s.port.linkConfig.link = false ∧ s.port.phydev = none
  | .linkUp => s.port.modulePresent = true
  | .connectPhy phy initHw =>
    s.port.modulePresent = true ∨ (moduleConnectPhy k s.port phy initHw).result ≠ none
  | _ => True

/-! ### What is left behind -/

/-- Without a module the stored link and an attached PHY decide. -/
theorem reportsDown_iff {pl : Port} (habsent : pl.modulePresent = false) :
    ReportsDown pl ↔ pl.linkConfig.link = false ∧ pl.phydev = none := by
  have hget : (phyPortStatusGet pl).2.linkStatus = false := by
    simp [phyPortStatusGet, habsent]
  simp only [ReportsDown, hget, and_true]
  cases hphy : pl.phydev with
  | none => simp [readStatus, hphy]
  | some inner =>
    -- The module's PHY may answer that its link is up.
    refine iff_of_false (fun h => ?_) (by simp)
    have hup := h (some ⟨.modeNa, true, 0, 0⟩)
    simp [readStatus, hphy, phyLinkChange] at hup

/-- What the property says about the state of the driver. -/
theorem noPhantomLink_iff (s : Session) :
    NoPhantomLink s ↔
      s.port.modulePresent = true ∨ (s.port.linkConfig.link = false ∧ s.port.phydev = none) := by
  unfold NoPhantomLink
  cases hpresent : s.port.modulePresent with
  | true => simp
  | false => simp [reportsDown_iff hpresent]

/-- **One event.** A permitted event keeps an absent module's link down exactly
when it is orderly. -/
theorem step_noPhantomLink_iff {k : Kernel} {s : Session} {e : Event} (hs : NoPhantomLink s)
    (hlegal : Legal s e) : NoPhantomLink (step k s e) ↔ Orderly k s e := by
  rw [noPhantomLink_iff] at hs ⊢
  have hattached (hphy : s.port.phydev ≠ none) : s.port.modulePresent = true :=
    hs.resolve_right fun h => hphy h.2
  cases e with
  | moduleInsert m =>
    simp only [step, moduleInsert, Orderly, iff_true]
    split <;> simp
  | moduleStart =>
    simp only [step, moduleStart, Orderly, iff_true]
    split
    · exact hs
    · split
      · exact hs
      · simpa using hs
  | moduleStop report =>
    simp only [step, moduleStop, Orderly, iff_true]
    split
    next hphy => simp [hattached (Option.isSome_iff_ne_none.mp hphy)]
    next => exact hs
  | moduleRemove => simp [step, moduleRemove, Orderly]
  | linkUp =>
    simp only [step, moduleLinkUp, Orderly]
    split
    next hphy => simp [hattached (Option.isSome_iff_ne_none.mp hphy)]
    next => simp
  | linkDown =>
    simp only [step, moduleLinkDown, Orderly, iff_true, true_and]
    exact hs.imp_right And.right
  | connectPhy phy initHw =>
    obtain ⟨hpresent, hlink, -, -, hphy⟩ := moduleConnectPhy_spec k s.port phy initHw
    simp only [step, Orderly, hpresent, hlink]
    split at hphy
    next hok => simp [hok, hphy]
    next hrefused => simpa [hrefused, hphy] using hs
  | disconnectPhy report => simp [step, moduleDisconnectPhy, Orderly, hattached hlegal]
  | deviceUp => simpa [step, Orderly] using hs
  | deviceDown => simpa [step, Orderly] using hs
  | setAdvertising advertising => simpa [step, Orderly] using hs
  | configAneg startAneg =>
    simp only [step, phyConfigAneg, Orderly, iff_true]
    split
    next => exact hs
    next hpresent =>
      have hpresent : s.port.modulePresent = true := by simpa using hpresent
      cases s.port.phydev <;> simp [hpresent]
  | readStatus answer =>
    simp only [step, readStatus, Orderly, iff_true]
    split
    next hphy => simp [phyLinkChange, hattached (by simp [hphy])]
    next => exact hs
  | portStatusGet =>
    simp only [step, phyPortStatusGet, Orderly, iff_true]
    split <;> exact hs
  | phyReport phydev up => simp [step, phyLinkChange, Orderly, hattached hlegal]

/-- **No phantom link.** Along every permitted run from the probe, a port without
a module reports its link as down in every state exactly when every event is
orderly. -/
theorem no_phantom_link_iff {k : Kernel} {upstream : Upstream} {deviceUp : Bool}
    {events : List Event}
    (hlegal : Runs.Along (step k) Legal (Session.start upstream deviceUp) events) :
    (∀ t ∈ Runs.states (step k) (Session.start upstream deviceUp) events, NoPhantomLink t) ↔
      Runs.Along (step k) (Orderly k) (Session.start upstream deviceUp) events := by
  refine Runs.forall_states_iff_along (fun s e => step_noPhantomLink_iff) ?_ hlegal
  simp [noPhantomLink_iff, Session.start, Port.probed]

/-- A fibre module without a PHY. -/
def fibreModule : Module := ⟨{.full1000baseX}, {.mode1000basex}, false⟩

/-- A module whose link goes down before it is taken out leaves no phantom. -/
theorem no_phantom_link_after_link_down :
    Runs.Along (step refusingKernel) Legal (Session.start idleUpstream true)
      [.moduleInsert fibreModule, .linkUp, .linkDown, .moduleRemove] ∧
    ∀ t ∈ Runs.states (step refusingKernel) (Session.start idleUpstream true)
      [.moduleInsert fibreModule, .linkUp, .linkDown, .moduleRemove], NoPhantomLink t := by
  have hlegal : Runs.Along (step refusingKernel) Legal (Session.start idleUpstream true)
      [.moduleInsert fibreModule, .linkUp, .linkDown, .moduleRemove] := by
    simp only [Runs.along_cons, Runs.along_nil, Legal]
    decide
  refine ⟨hlegal, (no_phantom_link_iff hlegal).mpr ?_⟩
  simp only [Runs.along_cons, Runs.along_nil, Orderly]
  decide

/-- The device is closed while the link is up, so that the core does not report
the link as down before the module is taken out. -/
theorem phantom_link_after_close :
    Runs.Along (step refusingKernel) Legal (Session.start idleUpstream true)
      [.moduleInsert fibreModule, .linkUp, .deviceDown, .moduleRemove] ∧
    ¬ ∀ t ∈ Runs.states (step refusingKernel) (Session.start idleUpstream true)
      [.moduleInsert fibreModule, .linkUp, .deviceDown, .moduleRemove], NoPhantomLink t := by
  constructor
  · simp only [Runs.along_cons, Runs.along_nil, Legal]
    decide
  · simp only [noPhantomLink_iff]
    decide

end TurrisBuild.Sfp
