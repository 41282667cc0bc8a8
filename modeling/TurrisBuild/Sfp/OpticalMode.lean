import TurrisBuild.Sfp.Session

/-!
# The optical mode of a module

A port without a module PHY runs an interface mode that the driver derives from
the advertisement of the upstream PHY. The advertisement belongs to the module in
the cage only if an earlier call has put it there.
-/

namespace TurrisBuild.Sfp

/-- The module supports the interface, it is the preferred one among those still
advertised, and the speed is that of the interface. -/
def RunsMode (support advertised : LinkModes) (interface : Interface) (speed : ℤ) : Prop :=
  interface ∈ opticalModes support ∧
    firstPreferred (opticalModes support ∩ opticalModes advertised) = some interface ∧
    speed = ifaceToSpeed interface

/-- A port without a module PHY runs a mode of the module that was configured. -/
def FitsModule (s : Session) : Prop :=
  ∀ advertised ∈ s.configured, s.port.phydev = none →
    RunsMode s.port.sfpSupport advertised s.port.linkConfig.interface s.port.linkConfig.speed

instance (s : Session) : Decidable (FitsModule s) :=
  inferInstanceAs (Decidable (∀ advertised ∈ s.configured, s.port.phydev = none → _ ∧ _ ∧ _))

/-- A module that may have a PHY is started without one only if the module
supports the preferred one of the modes that are advertised already, and a PHY
leaves no other mode behind when it is refused or disconnected. -/
def KeepsMode (k : Kernel) (s : Session) : Event → Prop
  | .moduleStart =>
    s.port.modulePresent = true → s.port.phydev = none → s.port.sfpMayHavePhy = true →
      ∀ interface ∈ firstPreferred (opticalModes s.port.upstream.advertising),
        interface ∈ opticalModes s.port.sfpSupport
  | .connectPhy phy initHw =>
    s.configured = none ∨ (moduleConnectPhy k s.port phy initHw).result = none ∨
      (moduleConnectPhy k s.port phy initHw).port.linkConfig.interface =
        s.port.linkConfig.interface
  | .disconnectPhy none => ∀ advertised ∈ s.configured,
    RunsMode s.port.sfpSupport advertised s.port.linkConfig.interface s.port.linkConfig.speed
  | .disconnectPhy (some phydev) => ∀ advertised ∈ s.configured,
    RunsMode s.port.sfpSupport advertised phydev.interface phydev.speed
  | _ => True

/-! ### The preferred mode -/

private theorem mem_ite_singleton {p : Prop} [Decidable p] {a interface : Interface} :
    interface ∈ (if p then {a} else (∅ : Finset Interface)) ↔ p ∧ interface = a := by
  split <;> simp [*]

private theorem mem_interfacePreference {modes : LinkModes} {interface : Interface}
    (h : interface ∈ opticalModes modes) : interface ∈ interfacePreference := by
  simp only [opticalModes, Finset.mem_union, mem_ite_singleton] at h
  rcases h with (⟨-, rfl⟩ | ⟨-, rfl⟩) | ⟨-, rfl⟩ <;> decide

/-- More link modes give more interfaces. -/
theorem opticalModes_mono {modes modes' : LinkModes} (h : modes ⊆ modes') :
    opticalModes modes ⊆ opticalModes modes' := by
  intro interface hmem
  simp only [opticalModes, Finset.mem_union, mem_ite_singleton] at hmem ⊢
  refine hmem.imp (Or.imp (And.imp_left ?_) (And.imp_left ?_)) (And.imp_left ?_)
  · exact Or.imp (@h _) (Or.imp (@h _) (Or.imp (@h _) (Or.imp (@h _) (@h _))))
  · exact Or.imp (@h _) (@h _)
  · exact Or.imp (@h _) (@h _)

private theorem firstPreferred_isSome {modes : LinkModes} (h : opticalModes modes ≠ ∅) :
    (firstPreferred (opticalModes modes)).isSome := by
  obtain ⟨interface, hmem⟩ := Finset.nonempty_iff_ne_empty.mpr h
  exact List.find?_isSome.mpr ⟨interface, mem_interfacePreference hmem, by simpa using hmem⟩

private theorem mem_of_firstPreferred {interfaces : Finset Interface} {interface : Interface}
    (h : firstPreferred interfaces = some interface) : interface ∈ interfaces := by
  simpa using List.find?_some h

/-- A preferred interface stays preferred among fewer of them. -/
theorem firstPreferred_inter {interfaces others : Finset Interface} {interface : Interface}
    (h : firstPreferred interfaces = some interface) (hmem : interface ∈ others) :
    firstPreferred (others ∩ interfaces) = some interface := by
  obtain ⟨hin, before, after, hsplit, hbefore⟩ := List.find?_eq_some_iff_append.mp h
  refine List.find?_eq_some_iff_append.mpr ⟨by simpa [hmem] using hin, before, after, hsplit, ?_⟩
  intro other hother
  have := hbefore other hother
  simp_all

/-! ### One event -/

/-- A configuration is refused for a mask without optical modes, and otherwise
chooses the preferred mode of the mask. -/
theorem moduleConfigOptical_spec (pl : Port) (advertising : LinkModes) :
    match firstPreferred (opticalModes advertising) with
    | some interface =>
      (moduleConfigOptical pl advertising).2 = none ∧
        (moduleConfigOptical pl advertising).1.linkConfig.interface = interface ∧
        (moduleConfigOptical pl advertising).1.linkConfig.speed = ifaceToSpeed interface
    | none => (moduleConfigOptical pl advertising).2 ≠ none := by
  unfold moduleConfigOptical
  by_cases hempty : opticalModes advertising = ∅
  · have hnone : firstPreferred ∅ = none := by simp [firstPreferred]
    simp [hempty, hnone]
  · obtain ⟨interface, hsome⟩ := Option.isSome_iff_exists.mp (firstPreferred_isSome hempty)
    simp [hempty, hsome]

/-- What becomes of a configuration that chooses from some mask. -/
theorem record_runsMode_iff (pl : Port) (support advertising : LinkModes) :
    (∀ advertised, record (moduleConfigOptical pl advertising).1 advertising
        (moduleConfigOptical pl advertising).2 = some advertised →
      RunsMode support advertised (moduleConfigOptical pl advertising).1.linkConfig.interface
        (moduleConfigOptical pl advertising).1.linkConfig.speed) ↔
    (pl.modulePresent = true →
      ∀ interface ∈ firstPreferred (opticalModes advertising),
        interface ∈ opticalModes support) := by
  have hspec := moduleConfigOptical_spec pl advertising
  cases hfirst : firstPreferred (opticalModes advertising) with
  | none =>
    simp only [hfirst] at hspec
    simp [record, hspec]
  | some interface =>
    simp only [hfirst] at hspec
    obtain ⟨hresult, hinterface, hspeed⟩ := hspec
    simp only [record, moduleConfigOptical_modulePresent, hresult, hinterface, hspeed]
    cases pl.modulePresent with
    | false => simp
    | true =>
      simp only [and_self, if_true, Option.some.injEq, forall_eq', Option.mem_def, true_imp_iff]
      exact ⟨fun h => h.1, fun h => ⟨h, firstPreferred_inter hfirst h, rfl⟩⟩

/-- **One event.** A permitted event leaves the port in a mode of its module
exactly when it keeps the mode. -/
theorem step_fitsModule_iff {k : Kernel} {s : Session} {e : Event} (hs : FitsModule s)
    (hlegal : Legal s e) : FitsModule (step k s e) ↔ KeepsMode k s e := by
  cases e with
  | moduleInsert m =>
    simp only [KeepsMode, iff_true]
    intro advertised hrecord _
    cases hmay : m.mayHavePhy with
    | true => simp [step, hmay] at hrecord
    | false =>
      simp only [step, moduleInsert, hmay, Bool.false_eq_true, if_false] at hrecord ⊢
      rw [moduleConfigOptical_sfpSupport]
      refine (record_runsMode_iff _ m.support m.support).mpr ?_ advertised hrecord
      exact fun _ interface hfirst => mem_of_firstPreferred hfirst
  | moduleStart =>
    cases hphy : s.port.phydev with
    | some phy => simp [FitsModule, KeepsMode, step, hphy]
    | none =>
      cases hmay : s.port.sfpMayHavePhy with
      | false => simpa [FitsModule, KeepsMode, step, moduleStart, hphy, hmay] using hs
      | true =>
        have hiff := record_runsMode_iff s.port s.port.sfpSupport s.port.upstream.advertising
        simpa [FitsModule, KeepsMode, step, moduleStart, hphy, hmay] using hiff
  | moduleStop report =>
    simp only [KeepsMode, iff_true]
    cases hphy : s.port.phydev with
    | some phy => cases report <;> simp [FitsModule, step, moduleStop, phyStop, phyLinkChange, hphy]
    | none => simpa [FitsModule, step, moduleStop, hphy] using hs
  | moduleRemove => simp [step, FitsModule, KeepsMode]
  | linkUp =>
    simp only [KeepsMode, iff_true]
    cases hphy : s.port.phydev with
    | some phy => simp [FitsModule, step, moduleLinkUp, hphy]
    | none =>
      intro advertised hconfigured _
      obtain ⟨hmem, hfirst, -⟩ := hs advertised hconfigured hphy
      simp only [step, moduleLinkUp, hphy]
      exact ⟨hmem, hfirst, rfl⟩
  | linkDown => simpa [FitsModule, KeepsMode, step, moduleLinkDown] using hs
  | connectPhy phy initHw =>
    have hphy : s.port.phydev = none := hlegal
    obtain ⟨-, -, hsupport, hspeed, hattached⟩ := moduleConnectPhy_spec k s.port phy initHw
    simp only [FitsModule, KeepsMode, step, hsupport, hspeed]
    split at hattached
    next hok => exact iff_of_true (fun _ _ h => absurd h hattached) (.inr (.inl hok))
    next hrefused =>
      cases hconfigured : s.configured with
      | none => simp
      | some advertised =>
        obtain ⟨hmem, hfirst, hspeed'⟩ := hs advertised hconfigured hphy
        simp only [hrefused, hattached, hphy, Option.mem_def, Option.some.injEq, forall_eq',
          true_imp_iff, reduceCtorEq, false_or]
        constructor
        · rintro ⟨-, hfirst', -⟩
          exact Option.some.inj (hfirst'.symm.trans hfirst)
        · intro heq
          rw [heq]
          exact ⟨hmem, hfirst, hspeed'⟩
  | disconnectPhy report =>
    cases report <;>
      simp [FitsModule, KeepsMode, step, moduleDisconnectPhy, phyStop, phyLinkChange]
  | deviceUp => simpa [FitsModule, KeepsMode, step] using hs
  | deviceDown => simpa [FitsModule, KeepsMode, step] using hs
  | setAdvertising advertising => simpa [FitsModule, KeepsMode, step] using hs
  | configAneg startAneg =>
    simp only [KeepsMode, iff_true]
    cases hpresent : s.port.modulePresent with
    | false => simpa [FitsModule, step, phyConfigAneg, hpresent] using hs
    | true =>
      cases hphy : s.port.phydev with
      | some phy => simp [FitsModule, step, phyConfigAneg, hpresent, hphy]
      | none =>
        intro advertised hrecord _
        simp only [step, phyConfigAneg, hpresent, hphy, Bool.not_true, Bool.false_eq_true,
          if_false, Bool.true_eq_false, ne_eq, not_true_eq_false, moduleConfigOptical_upstream,
          moduleConfigOptical_sfpSupport] at hrecord ⊢
        refine (record_runsMode_iff _ s.port.sfpSupport _).mpr ?_ advertised hrecord
        exact fun _ interface hfirst =>
          opticalModes_mono Finset.inter_subset_right (mem_of_firstPreferred hfirst)
  | readStatus answer =>
    simp only [KeepsMode, iff_true]
    cases hphy : s.port.phydev with
    | some phy => cases answer <;> simp [FitsModule, step, readStatus, phyLinkChange, hphy]
    | none => simpa [FitsModule, step, readStatus, hphy] using hs
  | portStatusGet =>
    simp only [KeepsMode, iff_true, step, phyPortStatusGet]
    split <;> simpa [FitsModule] using hs
  | phyReport phydev up =>
    have hphy : s.port.phydev ≠ none := hlegal
    simp [FitsModule, KeepsMode, step, phyLinkChange, hphy]

/-- **The mode fits the module.** Along every permitted run from the probe, the
port runs a mode of the configured module in every state exactly when every event
keeps the mode. -/
theorem fits_module_iff {k : Kernel} {upstream : Upstream} {deviceUp : Bool}
    {events : List Event}
    (hlegal : Runs.Along (step k) Legal (Session.start upstream deviceUp) events) :
    (∀ t ∈ Runs.states (step k) (Session.start upstream deviceUp) events, FitsModule t) ↔
      Runs.Along (step k) (KeepsMode k) (Session.start upstream deviceUp) events := by
  refine Runs.forall_states_iff_along (fun s e => step_fitsModule_iff) ?_ hlegal
  simp [FitsModule, Session.start]

/-- A module with a 10G fibre, and one with a 1G fibre that may have a PHY. -/
def tenGigModule : Module := ⟨{.full10000baseSR}, {.mode10gbaser}, false⟩

@[inherit_doc tenGigModule]
def oneGigModule : Module := ⟨{.full1000baseX}, {.mode1000basex}, true⟩

/-- The order in which the two modules are plugged. -/
def twoModules (first second : Module) : List Event :=
  [.moduleInsert first, .moduleStart, .moduleRemove, .moduleInsert second, .moduleStart]

/-- A later module without a PHY brings its own advertisement. -/
theorem fits_module_after_swap :
    Runs.Along (step refusingKernel) Legal
      (Session.start idleUpstream true) (twoModules oneGigModule tenGigModule) ∧
    ∀ t ∈ Runs.states (step refusingKernel)
      (Session.start idleUpstream true) (twoModules oneGigModule tenGigModule),
      FitsModule t := by
  have hlegal : Runs.Along (step refusingKernel) Legal
      (Session.start idleUpstream true) (twoModules oneGigModule tenGigModule) := by
    simp only [twoModules, Runs.along_cons, Runs.along_nil, Legal]
    decide
  refine ⟨hlegal, (fits_module_iff hlegal).mpr ?_⟩
  simp only [twoModules, Runs.along_cons, Runs.along_nil, KeepsMode]
  decide

/-- A module that may have a PHY and has none inherits the 10G mode of the module
that was in the cage before. -/
theorem start_inherits_mode :
    Runs.Along (step refusingKernel) Legal
      (Session.start idleUpstream true) (twoModules tenGigModule oneGigModule) ∧
    ¬ ∀ t ∈ Runs.states (step refusingKernel)
      (Session.start idleUpstream true) (twoModules tenGigModule oneGigModule),
      FitsModule t := by
  constructor
  · simp only [twoModules, Runs.along_cons, Runs.along_nil, Legal]
    decide
  · decide

end TurrisBuild.Sfp
