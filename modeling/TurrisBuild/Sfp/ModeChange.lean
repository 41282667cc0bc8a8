import TurrisBuild.Sfp.Session

/-!
# Changes of the interface mode

The switch layer sets up a port for the interface mode that it sees together with
the first report of the link as up. The driver asks for one report of the link as
down when it configures an optical mode itself, but not when it copies the mode
of a module's PHY, so that the order of polls and reports decides whether the
switch layer notices the change.
-/

namespace TurrisBuild.Sfp

/-- What the switch layer sees of a port at one time. -/
structure Observation where
  linkStatus : Bool
  interface : Interface
  deriving DecidableEq

/-- The link that `sfp_phy_port_status_get` reports, with the mode in `link_config`. -/
def observe (pl : Port) : Observation :=
  ⟨(phyPortStatusGet pl).2.linkStatus, pl.linkConfig.interface⟩

/-- The link is reported as up with a module in place, a stored link and no request. -/
theorem observe_linkStatus (pl : Port) :
    (observe pl).linkStatus =
      (pl.modulePresent && pl.linkConfig.link && !pl.forceLinkDownOnce) := by
  simp only [observe, phyPortStatusGet]
  cases pl.modulePresent && pl.linkConfig.link <;> cases hlatch : pl.forceLinkDownOnce <;> simp

/-- While the link is reported as up, the other query of the switch layer returns
the mode in `link_config`. -/
theorem phyInterfaceGetModeStatus_of_up {pl : Port} (hup : (observe pl).linkStatus = true)
    (interfaceModeStatus : Interface) :
    phyInterfaceGetModeStatus (phyPortStatusGet pl).1 interfaceModeStatus =
      (observe pl).interface := by
  have hlink : pl.linkConfig.link = true := by
    simp only [observe_linkStatus, Bool.and_eq_true] at hup
    exact hup.1.2
  unfold phyPortStatusGet
  simp only
  split <;> simp [phyInterfaceGetModeStatus, observe, hlink]

/-- No change of mode between two reports of the link as up. -/
def SameMode (first second : Observation) : Prop :=
  first.linkStatus = true → second.linkStatus = true → first.interface = second.interface

instance (first second : Observation) : Decidable (SameMode first second) :=
  inferInstanceAs (Decidable (_ → _ → _))

variable (k : Kernel)

/-- What the switch layer sees during a run. -/
def observations : Session → List Event → List Observation
  | _, [] => []
  | s, .portStatusGet :: es => observe s.port :: observations (step k s .portStatusGet) es
  | s, e :: es => observations (step k s e) es

/-- A session with the mode of its last observation, if that was one of a link up. -/
structure Watched where
  session : Session
  seen : Option Interface

/-- One event of a watched session. -/
def watch (w : Watched) (e : Event) : Watched where
  session := step k w.session e
  seen :=
    match e with
    | .portStatusGet =>
      if (observe w.session.port).linkStatus
      then some (observe w.session.port).interface
      else none
    | _ => w.seen

/-- The watched session that starts with the probe. -/
def Watched.start (upstream : Upstream) (deviceUp : Bool) : Watched :=
  ⟨.start upstream deviceUp, none⟩

/-- The mode may become this one without notice: the link was not seen up in
another one, or it will be reported as down in between. -/
def Watched.Admits (w : Watched) (interface : Interface) : Prop :=
  ∀ seen ∈ w.seen, interface = seen ∨ w.session.port.forceLinkDownOnce = true

instance (w : Watched) (interface : Interface) : Decidable (w.Admits interface) :=
  inferInstanceAs (Decidable (∀ seen ∈ w.seen, _))

/-- The mode that `sfp_module_connect_phy` selects for a PHY, if it accepts the PHY. -/
def selectedInterface (phy : Phy) : Option Interface :=
  let config : LinkState := ⟨phy.advertising, .modeNa, -1, 255, false⟩
  let masks := validate k phy.supported (phy.hostInterfaces ∪ interfacePreference.toFinset) config
  let interface := k.selectInterface masks.2
  let narrowed := k.validateMaskCaps masks.1
    { config with advertising := masks.2, interface := interface }
  if isEmptyLinkmode masks.1 || interface = .modeNa || isEmptyLinkmode narrowed.1
  then none
  else some interface

/-- A module's PHY is connected, polled or heard of only in a mode that the port
may take on without notice. -/
def Steady (w : Watched) : Event → Prop
  | .connectPhy phy _ => ∀ interface ∈ selectedInterface k phy, w.Admits interface
  | .readStatus (some phydev) => w.session.port.phydev ≠ none → w.Admits phydev.interface
  | .phyReport phydev _ => w.Admits phydev.interface
  | .moduleStop (some phydev) => w.session.port.phydev ≠ none → w.Admits phydev.interface
  | .disconnectPhy (some phydev) => w.Admits phydev.interface
  | _ => True

/-- The next report of the link as up shows the mode that was seen last. -/
def Announced (w : Watched) : Prop := w.Admits w.session.port.linkConfig.interface

variable {k}

/-! ### The mode after one event -/

/-- A connected PHY brings the mode selected for it, a refused one may do so too. -/
theorem moduleConnectPhy_interface (pl : Port) (phy : Phy) (initHw : Option Errno) :
    (moduleConnectPhy k pl phy initHw).port.linkConfig.interface =
      (selectedInterface k phy).getD pl.linkConfig.interface := by
  unfold moduleConnectPhy selectedInterface
  simp only
  split
  next hempty => simp [hempty]
  next hsupported =>
    split
    next hna => simp [hna]
    next hselected =>
      split
      next hnarrow => simp [hnarrow]
      next hnarrowed => cases initHw <;> simp [setConfig, hsupported, hselected, hnarrowed]

/-- Connecting a PHY does not touch the latch. -/
@[simp] theorem moduleConnectPhy_forceLinkDownOnce (pl : Port) (phy : Phy)
    (initHw : Option Errno) :
    (moduleConnectPhy k pl phy initHw).port.forceLinkDownOnce = pl.forceLinkDownOnce := by
  unfold moduleConnectPhy
  simp only
  split
  · rfl
  · split
    · rfl
    · split
      · rfl
      · cases initHw <;> rfl

/-- An optical mode is announced: the driver asks for a report of the link as down. -/
theorem moduleConfigOptical_announced (pl : Port) (advertising : LinkModes) :
    (moduleConfigOptical pl advertising).1.forceLinkDownOnce = true ∨
      (moduleConfigOptical pl advertising).1.linkConfig.interface = pl.linkConfig.interface ∧
        (moduleConfigOptical pl advertising).1.forceLinkDownOnce = pl.forceLinkDownOnce := by
  obtain h | ⟨interface, h⟩ := moduleConfigOptical_cases pl advertising
  · rw [h]
    exact .inr ⟨rfl, rfl⟩
  · rw [h]
    exact .inl rfl

/-- A port that is announced stays so if it asks for a report of the link as down,
or changes neither its mode nor its request. -/
theorem Announced.of_port {w : Watched} (hw : Announced w) {s : Session}
    (hs : s.port.forceLinkDownOnce = true ∨
      s.port.linkConfig.interface = w.session.port.linkConfig.interface ∧
        s.port.forceLinkDownOnce = w.session.port.forceLinkDownOnce) :
    Announced ⟨s, w.seen⟩ := by
  intro seen hseen
  obtain hlatch | ⟨hinterface, hlatch⟩ := hs
  · exact .inr hlatch
  · have := hw seen hseen
    rw [← hinterface, ← hlatch] at this
    exact this

/-- A module's PHY changes the mode and leaves the request as it is. -/
theorem phyLinkChange_announced_iff {w : Watched} {s : Session} (phydev : PhyStatus) (up : Bool)
    (hlatch : s.port.forceLinkDownOnce = w.session.port.forceLinkDownOnce) :
    Announced ⟨{ s with port := phyLinkChange s.port phydev up }, w.seen⟩ ↔
      w.Admits phydev.interface := by
  simp [Announced, Watched.Admits, phyLinkChange, hlatch]

/-- **One event.** An event keeps the mode announced exactly when it is steady. -/
theorem step_announced_iff {w : Watched} {e : Event} (hw : Announced w) :
    Announced (watch k w e) ↔ Steady k w e := by
  cases e with
  | moduleInsert m =>
    simp only [Steady, iff_true]
    refine hw.of_port (s := step k w.session (.moduleInsert m)) ?_
    simp only [step, moduleInsert]
    split
    · exact .inr ⟨rfl, rfl⟩
    · exact moduleConfigOptical_announced _ _
  | moduleStart =>
    simp only [Steady, iff_true]
    refine hw.of_port (s := step k w.session .moduleStart) ?_
    simp only [step, moduleStart]
    split
    · exact .inr ⟨rfl, rfl⟩
    · split
      · exact .inr ⟨rfl, rfl⟩
      · exact moduleConfigOptical_announced _ _
  | moduleStop report =>
    cases hphy : w.session.port.phydev with
    | none =>
      have hsteady : Steady k w (.moduleStop report) := by
        cases report <;> simp [Steady, hphy]
      refine iff_of_true (hw.of_port (s := step k w.session (.moduleStop report)) ?_) hsteady
      simp [step, moduleStop, hphy]
    | some phy =>
      cases report with
      | none => simpa [watch, step, moduleStop, phyStop, hphy, Steady] using hw
      | some phydev =>
        have hchange := phyLinkChange_announced_iff (w := w) (s := w.session) phydev false rfl
        simpa [watch, step, moduleStop, phyStop, hphy, Steady] using hchange
  | moduleRemove =>
    simp only [Steady, iff_true]
    exact hw.of_port (s := step k w.session .moduleRemove) (.inr ⟨rfl, rfl⟩)
  | linkUp =>
    simp only [Steady, iff_true]
    refine hw.of_port (s := step k w.session .linkUp) ?_
    simp only [step, moduleLinkUp]
    split <;> exact .inr ⟨rfl, rfl⟩
  | linkDown =>
    simp only [Steady, iff_true]
    exact hw.of_port (s := step k w.session .linkDown) (.inr ⟨rfl, rfl⟩)
  | connectPhy phy initHw =>
    have hinterface := moduleConnectPhy_interface (k := k) w.session.port phy initHw
    cases hselected : selectedInterface k phy with
    | none =>
      rw [hselected] at hinterface
      refine iff_of_true (hw.of_port (s := step k w.session (.connectPhy phy initHw)) ?_) ?_
      · exact .inr ⟨hinterface, moduleConnectPhy_forceLinkDownOnce _ _ _⟩
      · simp [Steady, hselected]
    | some interface =>
      rw [hselected] at hinterface
      simp [Announced, Watched.Admits, watch, step, hinterface, Steady, hselected]
  | disconnectPhy report =>
    cases report with
    | none =>
      simp only [Steady, iff_true]
      exact hw.of_port (s := step k w.session (.disconnectPhy none)) (.inr ⟨rfl, rfl⟩)
    | some phydev =>
      exact phyLinkChange_announced_iff (w := w)
        (s := { w.session with port := { w.session.port with phydev := none } }) phydev false rfl
  | deviceUp =>
    simp only [Steady, iff_true]
    exact hw.of_port (s := step k w.session .deviceUp) (.inr ⟨rfl, rfl⟩)
  | deviceDown =>
    simp only [Steady, iff_true]
    exact hw.of_port (s := step k w.session .deviceDown) (.inr ⟨rfl, rfl⟩)
  | setAdvertising advertising =>
    simp only [Steady, iff_true]
    exact hw.of_port (s := step k w.session (.setAdvertising advertising)) (.inr ⟨rfl, rfl⟩)
  | configAneg startAneg =>
    simp only [Steady, iff_true]
    refine hw.of_port (s := step k w.session (.configAneg startAneg)) ?_
    simp only [step, phyConfigAneg]
    split
    · exact .inr ⟨rfl, rfl⟩
    · split
      · exact .inr ⟨rfl, rfl⟩
      · exact moduleConfigOptical_announced _ _
  | readStatus answer =>
    cases hphy : w.session.port.phydev with
    | none =>
      have hsteady : Steady k w (.readStatus answer) := by
        cases answer <;> simp [Steady, hphy]
      refine iff_of_true (hw.of_port (s := step k w.session (.readStatus answer)) ?_) hsteady
      simp [step, readStatus, hphy]
    | some phy =>
      cases answer with
      | none =>
        simpa [watch, step, readStatus, hphy, Steady, Announced, Watched.Admits] using hw
      | some phydev =>
        simp [watch, step, readStatus, hphy, Steady, Announced, Watched.Admits, phyLinkChange]
  | portStatusGet =>
    simp only [Steady, iff_true]
    intro seen hseen
    simp only [watch] at hseen
    split at hseen
    next hup =>
      left
      obtain rfl := Option.some.inj hseen
      simp only [watch, step, phyPortStatusGet, observe]
      split <;> rfl
    next => simp at hseen
  | phyReport phydev up => exact phyLinkChange_announced_iff phydev up rfl

/-- Along every run from the probe the mode stays announced exactly when every
event is steady. -/
theorem announced_iff {upstream : Upstream} {deviceUp : Bool} {events : List Event} :
    (∀ t ∈ Runs.states (watch k) (Watched.start upstream deviceUp) events, Announced t) ↔
      Runs.Along (watch k) (Steady k) (Watched.start upstream deviceUp) events := by
  have hlegal : Runs.Along (watch k) (fun _ _ => True) (Watched.start upstream deviceUp) events :=
    Runs.along_of_forall (fun _ _ => trivial) _ _
  refine Runs.forall_states_iff_along (fun w e hw _ => step_announced_iff hw) ?_ hlegal
  simp [Announced, Watched.Admits, Watched.start]

/-! ### What the switch layer sees -/

/-- A report of the link as up shows the mode in which the link was seen last. -/
theorem Announced.observe {w : Watched} (hw : Announced w)
    (hup : (observe w.session.port).linkStatus = true) :
    ∀ seen ∈ w.seen, (observe w.session.port).interface = seen := by
  intro seen hseen
  refine (hw seen hseen).resolve_right fun hlatch => ?_
  simp [observe_linkStatus, hlatch] at hup

/-- Along steady events the observations follow one another without a change of
mode, and so does the first of them follow what was seen before. -/
theorem observations_chain {w : Watched} {events : List Event} (hw : Announced w)
    (hsteady : Runs.Along (watch k) (Steady k) w events) :
    (observations k w.session events).IsChain SameMode ∧
      ∀ o ∈ (observations k w.session events).head?, o.linkStatus = true →
        ∀ seen ∈ w.seen, o.interface = seen := by
  induction events generalizing w with
  | nil => simp [observations]
  | cons e es ih =>
    obtain ⟨he, hes⟩ := hsteady
    obtain ⟨hchain, hfirst⟩ := ih ((step_announced_iff hw).mpr he) hes
    cases e with
    | portStatusGet =>
      simp only [observations, List.isChain_cons, List.head?_cons, Option.mem_some_iff,
        forall_eq']
      refine ⟨⟨fun o ho hup hup' => ?_, hchain⟩, hw.observe⟩
      exact (hfirst o ho hup' _ (by simp [watch, hup])).symm
    | _ => exact ⟨hchain, hfirst⟩

/-- A mode that is not announced can be seen as an uninterrupted link: the core and
a module's PHY only have to bring up the link before the next observation. -/
theorem unannounced_seen_up {w : Watched} (hw : ¬ Announced w) :
    ∃ seen ∈ w.seen, ∃ after, Runs.Along (step k) Legal w.session after ∧
      ∃ o, observations k w.session after = [o] ∧ o.linkStatus = true ∧ o.interface ≠ seen := by
  simp only [Announced, Watched.Admits] at hw
  push Not at hw
  obtain ⟨seen, hseen, hinterface, hlatch⟩ := hw
  refine ⟨seen, hseen, ?_⟩
  set pl := w.session.port with hpl
  -- A module that may have a PHY is inserted without any change of the mode.
  let insert : Event := .moduleInsert ⟨∅, ∅, true⟩
  let up : Event :=
    if pl.phydev = none then .linkUp else .readStatus (some ⟨pl.linkConfig.interface, true, 0, 0⟩)
  refine ⟨[insert, up, .portStatusGet], ?_, ⟨true, pl.linkConfig.interface⟩, ?_, rfl, hinterface⟩
  · cases hphy : pl.phydev <;> simp [insert, up, hphy, Legal]
  · cases hphy : pl.phydev <;>
      simp [insert, up, hphy, observations, step, moduleInsert, ← hpl, moduleLinkUp, readStatus,
        phyLinkChange, observe, phyPortStatusGet, hlatch]

/-- **A change of mode interrupts the link.** In every run from the probe in which
every event is steady, two consecutive observations of the link as up show the
same mode. -/
theorem mode_change_interrupts {upstream : Upstream} {deviceUp : Bool} {events : List Event}
    (hsteady : Runs.Along (watch k) (Steady k) (Watched.start upstream deviceUp) events) :
    (observations k (Session.start upstream deviceUp) events).IsChain SameMode := by
  have hstart : Announced (Watched.start upstream deviceUp) := by
    simp [Announced, Watched.Admits, Watched.start]
  exact (observations_chain hstart hsteady).1

/-- The speed of the link modes that the driver names. -/
def LinkMode.speed : LinkMode → Option ℤ
  | .full10000baseCR | .full10000baseT | .full10000baseKR | .full10000baseSR
  | .full10000baseLR => some 10000
  | .full2500baseX | .full2500baseT => some 2500
  | .full1000baseT | .full1000baseX => some 1000
  | _ => none

/-- The link modes of a mask that an interface mode carries. -/
def carried (interface : Interface) (modes : LinkModes) : LinkModes :=
  modes.filter fun mode =>
    mode.speed = none ∨ mode.speed = some (ifaceToSpeed interface) ∨ interface = .modeUsxgmii

/-- A kernel whose MAC has all the speeds, and which selects the fastest mode. -/
def copperKernel : Kernel where
  validateMaskCaps supported state :=
    (carried state.interface supported, carried state.interface state.advertising)
  selectInterface modes :=
    if .full10000baseT ∈ modes then .mode10gbaser
    else if .full2500baseT ∈ modes then .mode2500basex
    else if .full1000baseT ∈ modes then .modeSgmii
    else .modeNa

/-- A copper module and its PHY for two speeds. -/
def copperModule : Module := ⟨{.full10000baseT, .full1000baseT}, {.mode10gbaser, .modeSgmii}, true⟩

@[inherit_doc copperModule]
def copperPhy : Phy where
  supported := {.full10000baseT, .full1000baseT}
  advertising := {.full10000baseT, .full1000baseT}
  hostInterfaces := ∅
  interface := .modeNa
  link := false
  speed := 0
  duplex := 0
  phylink := false
  phyLinkChange := false

/-- What the PHY answers at its two speeds. -/
def copperStatus (fast up : Bool) : PhyStatus :=
  if fast then ⟨.mode10gbaser, up, 10000, 1⟩ else ⟨.modeSgmii, up, 1000, 1⟩

/-- The module is plugged and polled, with an observation after each poll. -/
def copperRun (answers : List PhyStatus) : List Event :=
  [.moduleInsert copperModule, .connectPhy copperPhy none, .moduleStart] ++
    answers.flatMap fun answer => [.readStatus (some answer), .portStatusGet]

/-- A link partner that takes the link down before it changes the speed. -/
theorem slow_down_after_link_down :
    Runs.Along (watch copperKernel) (Steady copperKernel) (Watched.start idleUpstream true)
      (copperRun [copperStatus true true, copperStatus true false, copperStatus false true]) ∧
    (observations copperKernel (Session.start idleUpstream true)
      (copperRun [copperStatus true true, copperStatus true false, copperStatus false true])
        ).IsChain SameMode := by
  have hsteady : Runs.Along (watch copperKernel) (Steady copperKernel)
      (Watched.start idleUpstream true)
      (copperRun [copperStatus true true, copperStatus true false, copperStatus false true]) := by
    simp only [copperRun, List.flatMap_cons, List.flatMap_nil, List.cons_append, List.nil_append,
      Runs.along_cons, Runs.along_nil, Steady]
    decide
  exact ⟨hsteady, mode_change_interrupts hsteady⟩

/-- The PHY renegotiates from 10G to 1G between two polls, and the switch layer
sees an uninterrupted link in two modes. -/
theorem renegotiation_unseen :
    Runs.Along (step copperKernel) Legal (Session.start idleUpstream true)
      (copperRun [copperStatus true true, copperStatus false true]) ∧
    observations copperKernel (Session.start idleUpstream true)
      (copperRun [copperStatus true true, copperStatus false true]) =
        [⟨true, .mode10gbaser⟩, ⟨true, .modeSgmii⟩] ∧
    ¬ (observations copperKernel (Session.start idleUpstream true)
      (copperRun [copperStatus true true, copperStatus false true])).IsChain SameMode := by
  have hseen : observations copperKernel (Session.start idleUpstream true)
      (copperRun [copperStatus true true, copperStatus false true]) =
        [⟨true, .mode10gbaser⟩, ⟨true, .modeSgmii⟩] := by
    decide
  refine ⟨?_, hseen, ?_⟩
  · simp only [copperRun, List.flatMap_cons, List.flatMap_nil, List.cons_append, List.nil_append,
      Runs.along_cons, Runs.along_nil, Legal]
    decide
  · rw [hseen]
    decide

end TurrisBuild.Sfp
