import Mathlib.Data.List.Forall2
import TurrisBuild.Sfp.ModeChange

/-!
# Modules that appear late

A module's PHY may be attached long after the port was opened, and then nothing drives its
state machine. The port's own poll asks it instead. From the first answer on, the reports of the
port follow what was last heard of the link, in whatever order the module, the cage and the
network device came up; only the first report of a link may be a link down, when a mode was set
before.
-/

namespace TurrisBuild.Sfp

open Runs

/-- An event after which the PHY of the module is still the same. -/
def KeepsPhy : Event → Prop
  | .moduleInsert _ => False
  | .moduleRemove => False
  | .connectPhy _ _ => False
  | .disconnectPhy _ => False
  | _ => True

/-- What an event says about the link. -/
def hear (last : PhyStatus) : Event → PhyStatus
  | .moduleStop (some phydev) => { phydev with link := false }
  | .linkDown => { last with link := false }
  | .readStatus (some status) => status
  | .phyReport phydev up => { phydev with link := up }
  | _ => last

def PhyStatus.report (status : PhyStatus) : PortPhyStatus :=
  ⟨status.link, status.speed, status.duplex⟩

/-- What the upstream PHY has after a poll. -/
def polled (k : Kernel) (s : Session) : Event → Option PortPhyStatus
  | .readStatus answer =>
    let upstream := (step k s (.readStatus answer)).port.upstream
    some ⟨upstream.link, upstream.speed, upstream.duplex⟩
  | _ => none

/-- What `sfp_phy_port_status_get` reports. -/
def got (s : Session) : Event → Option PortPhyStatus
  | .portStatusGet => some (phyPortStatusGet s.port).2
  | _ => none

/-! ### What was heard -/

/-- The link that was heard when an event is a poll. -/
def heardPolled (last : PhyStatus) : Event → Option PortPhyStatus
  | .readStatus answer => some (hear last (.readStatus answer)).report
  | _ => none

/-- The link that was heard when an event asks for the status. -/
def heardGot (last : PhyStatus) : Event → Option PortPhyStatus
  | .portStatusGet => some last.report
  | _ => none

/-- Of the reports that say that the link is up, the first one may say that it is down. -/
inductive Dips : List PortPhyStatus → List PortPhyStatus → Prop
  | same (reports : List PortPhyStatus) : Dips reports reports
  | dip (report : PortPhyStatus) (hup : report.linkStatus = true) (reports : List PortPhyStatus) :
    Dips ({ report with linkStatus := false } :: reports) (report :: reports)
  | down (report : PortPhyStatus) (hdown : report.linkStatus = false)
    {reports heard : List PortPhyStatus} (h : Dips reports heard) :
    Dips (report :: reports) (report :: heard)

/-- The PHY of a module is attached, and the port has what was last heard of it. -/
structure Follows (s : Session) (last : PhyStatus) : Prop where
  present : s.port.modulePresent = true
  attached : s.port.phydev.isSome = true
  link_eq : s.port.linkConfig.link = last.link
  speed_eq : s.port.linkConfig.speed = last.speed
  duplex_eq : s.port.linkConfig.duplex = last.duplex

variable {k : Kernel} {s : Session} {last : PhyStatus}

private theorem Follows.of_phyLinkChange {pl : Port} (hpresent : pl.modulePresent = true)
    (hattached : pl.phydev.isSome = true) (phydev : PhyStatus) (up : Bool) (s : Session) :
    Follows { s with port := phyLinkChange pl phydev up } { phydev with link := up } :=
  ⟨hpresent, hattached, rfl, rfl, rfl⟩

/-- An answer is what the port has, whatever it had before. -/
theorem follows_answer (hpresent : s.port.modulePresent = true)
    (hattached : s.port.phydev.isSome = true) (status : PhyStatus) :
    Follows (step k s (.readStatus (some status))) status := by
  obtain ⟨inner, hinner⟩ := Option.isSome_iff_exists.mp hattached
  refine ⟨?_, ?_, ?_, ?_, ?_⟩ <;> simp [step, readStatus, hinner, phyLinkChange, hpresent]

private theorem follows_step (h : Follows s last) {e : Event} (he : KeepsPhy e) :
    Follows (step k s e) (hear last e) := by
  cases e with
  | moduleInsert m => cases he
  | moduleRemove => cases he
  | connectPhy phy initHw => cases he
  | disconnectPhy report => cases he
  | moduleStart =>
    have hport : (moduleStart s.port).1 = s.port := by rw [moduleStart, if_pos h.attached]
    simp only [step, hear, hport]
    exact ⟨h.present, h.attached, h.link_eq, h.speed_eq, h.duplex_eq⟩
  | moduleStop report =>
    have hport : moduleStop s.port report = phyStop s.port report := if_pos h.attached
    simp only [step, hport]
    cases report with
    | none => exact ⟨h.present, h.attached, h.link_eq, h.speed_eq, h.duplex_eq⟩
    | some phydev => exact .of_phyLinkChange h.present h.attached phydev false s
  | linkUp =>
    have hport : moduleLinkUp s.port = s.port := if_pos h.attached
    simp only [step, hear, hport]
    exact ⟨h.present, h.attached, h.link_eq, h.speed_eq, h.duplex_eq⟩
  | linkDown => exact ⟨h.present, h.attached, rfl, h.speed_eq, h.duplex_eq⟩
  | deviceUp => exact ⟨h.present, h.attached, h.link_eq, h.speed_eq, h.duplex_eq⟩
  | deviceDown => exact ⟨h.present, h.attached, h.link_eq, h.speed_eq, h.duplex_eq⟩
  | setAdvertising _ => exact ⟨h.present, h.attached, h.link_eq, h.speed_eq, h.duplex_eq⟩
  | configAneg startAneg =>
    obtain ⟨inner, hinner⟩ := Option.isSome_iff_exists.mp h.attached
    have hport : (phyConfigAneg s.port startAneg).1 = { s.port with phydev := some { inner with
        advertising := s.port.upstream.advertising ∩ inner.supported } } := by
      simp only [phyConfigAneg, h.present, hinner, Bool.not_true, Bool.false_eq_true, if_false]
    simp only [step, hear, hport]
    exact ⟨h.present, rfl, h.link_eq, h.speed_eq, h.duplex_eq⟩
  | readStatus answer =>
    cases answer with
    | none =>
      obtain ⟨inner, hinner⟩ := Option.isSome_iff_exists.mp h.attached
      simp only [step, hear, readStatus, hinner]
      exact ⟨h.present, rfl, h.link_eq, h.speed_eq, h.duplex_eq⟩
    | some status => exact follows_answer h.present h.attached status
  | portStatusGet =>
    simp only [step, hear, phyPortStatusGet]
    split
    · exact ⟨h.present, h.attached, h.link_eq, h.speed_eq, h.duplex_eq⟩
    · exact h
  | phyReport phydev up => exact .of_phyLinkChange h.present h.attached phydev up s

/-! ### What is reported -/

/-- After a poll the upstream PHY has what the port has. -/
theorem polled_eq (h : Follows s last) {e : Event} (he : KeepsPhy e) :
    polled k s e = heardPolled last e := by
  cases e with
  | readStatus answer =>
    have hafter : Follows (step k s (.readStatus answer)) (hear last (.readStatus answer)) :=
      follows_step h he
    rw [polled, heardPolled, PhyStatus.report, ← hafter.link_eq, ← hafter.speed_eq,
      ← hafter.duplex_eq]
    rfl
  | _ => rfl

private theorem got_eq (h : Follows s last) :
    (phyPortStatusGet s.port).2 =
      if last.link && s.port.forceLinkDownOnce then { last.report with linkStatus := false }
      else last.report := by
  simp only [phyPortStatusGet, h.present, Bool.true_and, h.link_eq, h.speed_eq, h.duplex_eq]
  split
  · rfl
  · rfl

/-- No mode is set for a PHY that stays attached, so that no link down is asked for. -/
theorem forceLinkDownOnce_step (h : Follows s last) {e : Event} (he : KeepsPhy e)
    (hforce : s.port.forceLinkDownOnce = false) :
    (step k s e).port.forceLinkDownOnce = false := by
  obtain ⟨inner, hinner⟩ := Option.isSome_iff_exists.mp h.attached
  cases e with
  | moduleInsert m => cases he
  | moduleRemove => cases he
  | connectPhy phy initHw => cases he
  | disconnectPhy report => cases he
  | moduleStart => simp only [step, moduleStart, if_pos h.attached, hforce]
  | moduleStop report =>
    simp only [step, moduleStop, if_pos h.attached]
    cases report with
    | none => exact hforce
    | some phydev => exact hforce
  | linkUp => simp only [step, moduleLinkUp, if_pos h.attached, hforce]
  | configAneg startAneg =>
    simp only [step, phyConfigAneg, h.present, hinner, Bool.not_true, Bool.false_eq_true, if_false,
      hforce]
  | readStatus answer =>
    simp only [step, readStatus, hinner]
    cases answer with
    | none => exact hforce
    | some status => exact hforce
  | portStatusGet =>
    simp only [step, phyPortStatusGet]
    split
    · rfl
    · exact hforce
  | linkDown => exact hforce
  | deviceUp => exact hforce
  | deviceDown => exact hforce
  | setAdvertising advertising => exact hforce
  | phyReport phydev up => exact hforce

/-- Without a link down to be made the reports are what was heard. -/
theorem outputs_got (h : Follows s last) (hforce : s.port.forceLinkDownOnce = false)
    {events : List Event} (hkeeps : ∀ e ∈ events, KeepsPhy e) :
    outputs (step k) got s events = outputs hear heardGot last events := by
  refine outputs_eq_of_simulation
    (fun s last => Follows s last ∧ s.port.forceLinkDownOnce = false) KeepsPhy ?_ ?_ ⟨h, hforce⟩
    hkeeps
  · intro s last e hs he
    exact ⟨follows_step hs.1 he, forceLinkDownOnce_step hs.1 he hs.2⟩
  · intro s last e hs _
    cases e with
    | portStatusGet =>
      rw [got, heardGot, got_eq hs.1, hs.2, Bool.and_false, if_neg Bool.false_ne_true]
    | _ => rfl

private theorem dips_got (h : Follows s last) {events : List Event}
    (hkeeps : ∀ e ∈ events, KeepsPhy e) :
    Dips (outputs (step k) got s events) (outputs hear heardGot last events) := by
  induction events generalizing s last with
  | nil => exact .same []
  | cons e events ih =>
    obtain ⟨he, hevents⟩ := List.forall_mem_cons.mp hkeeps
    have hafter : Follows (step k s e) (hear last e) := follows_step h he
    have hrest := ih hafter hevents
    cases e with
    | portStatusGet =>
      cases hforce : s.port.forceLinkDownOnce with
      | false =>
        rw [outputs_got h hforce hkeeps]
        exact .same _
      | true =>
        simp only [outputs, got, heardGot, Option.toList_some, List.singleton_append, got_eq h,
          hforce, Bool.and_true]
        cases hup : last.link with
        | false => exact .down last.report hup hrest
        | true =>
          -- The link down is made, and no other one.
          have hmade : (step k s .portStatusGet).port.forceLinkDownOnce = false := by
            simp only [step, phyPortStatusGet, h.present, h.link_eq, hup, hforce, Bool.and_self,
              if_true]
          rw [outputs_got hafter hmade hevents, if_pos rfl]
          exact .dip last.report hup _
    | _ => exact hrest

/-- **The port follows a module that appears late.** Once the PHY of the module in the cage has
answered a poll, all that the port reports is what was heard since then, and does not depend on
what happened before; only the first report that the link is up may be missing. -/
theorem late_module_reported (hpresent : s.port.modulePresent = true)
    (hattached : s.port.phydev.isSome = true) (status : PhyStatus) {events : List Event}
    (hkeeps : ∀ e ∈ events, KeepsPhy e) :
    outputs (step k) (polled k) (step k s (.readStatus (some status))) events =
        outputs hear heardPolled status events ∧
      Dips (outputs (step k) got (step k s (.readStatus (some status))) events)
        (outputs hear heardGot status events) := by
  have hfollows := follows_answer (k := k) hpresent hattached status
  refine ⟨?_, dips_got hfollows hkeeps⟩
  refine outputs_eq_of_simulation Follows KeepsPhy ?_ ?_ hfollows hkeeps
  · intro s last e hs he
    exact follows_step hs he
  · intro s last e hs he
    exact polled_eq hs he

/-- A copper module that is probed late. -/
theorem late_module_reported_copper :
    let s := (copperRun []).foldl (step copperKernel) (.start idleUpstream true)
    Dips (outputs (step copperKernel) got
        (step copperKernel s (.readStatus (some (copperStatus true true))))
        [.portStatusGet, .linkDown, .portStatusGet])
      (outputs hear heardGot (copperStatus true true)
        [.portStatusGet, .linkDown, .portStatusGet]) := by
  intro s
  refine (late_module_reported (by decide) (by decide) _ fun e he => ?_).2
  simp only [List.mem_cons, List.not_mem_nil, or_false] at he
  rcases he with rfl | rfl | rfl
  · trivial
  · trivial
  · trivial

end TurrisBuild.Sfp
