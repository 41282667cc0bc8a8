import Mathlib.Data.List.Basic

/-!
# The interface that watchcat restarts

With the option for a logical interface, the settings of an instance go from the init script
through the command line of `watchcat.sh` and its dispatch by mode to the parameters of
`watchcat_monitor_network`, by position only. The parameter that takes the logical interface
and the variable that the decision looks at have different names.
-/

namespace TurrisBuild.Watchcat

abbrev Word := List Char

/-- A section of the configuration. An option that is not set has an empty value. -/
structure Section where
  period : Word
  pinghosts : Word
  pingperiod : Word
  pingsize : Word
  interface : Word
  logicalInterface : Word
  mmifacename : Word
  unlockbands : Word
  addressfamily : Word
  script : Word

/-- `config_get` and `config_get_bool` of OpenWrt, on the value of an option and a default -/
structure Functions where
  configGet : Word → Word → Word
  configGetBool : Word → Word → Word

/-- The variables of `config_watchcat`, which are the configured values. -/
def configWatchcat (functions : Functions) (s : Section) : Section :=
  { s with
    pingsize := functions.configGet s.pingsize "standard".toList
    unlockbands := functions.configGetBool s.unlockbands ['0']
    addressfamily := functions.configGet s.addressfamily "any".toList }

/-- The command of an instance with the mode `restart_iface` -/
def restartIfaceCommand (c : Section) : List Word :=
  ["restart_iface".toList, c.period, c.pinghosts, c.pingperiod, c.pingsize, c.interface,
    c.mmifacename, c.unlockbands, c.logicalInterface, c.addressfamily]

/-- The command of an instance with the mode `run_script` -/
def runScriptCommand (c : Section) : List Word :=
  ["run_script".toList, c.period, c.pinghosts, c.pingperiod, c.pingsize, c.interface,
    c.addressfamily, c.script]

/-- A positional parameter, which is empty when it is not given. -/
def param (args : List Word) (n : ℕ) : Word := args.getD (n - 1) []

/-- The parameters that `watchcat.sh` calls `watchcat_monitor_network` with, for the two modes
that the change is about. -/
def dispatch (args : List Word) : Option (List Word) :=
  if param args 1 = "restart_iface".toList then
    some [param args 2, param args 3, param args 4, param args 5, param args 6, param args 7,
      param args 8, param args 9, param args 10, []]
  else if param args 1 = "run_script".toList then
    some [param args 2, param args 3, param args 4, param args 5, param args 6, [], [], [],
      param args 7, param args 8]
  else none

/-- The names of variables in `watchcat_monitor_network`. -/
inductive Var
  | failurePeriod
  | pingHosts
  | pingFrequencyInterval
  | pingSize
  | iface
  | mmIfaceName
  | mmIfaceUnlockBands
  | logicalInterface
  | logicalIface
  | addressFamily
  | script
deriving DecidableEq

/-- The values of variables. One that is not assigned expands to nothing. -/
abbrev Vars := Var → Word

def Vars.assign (vars : Vars) (var : Var) (value : Word) : Vars := Function.update vars var value

/-- The assignments of `watchcat_monitor_network` -/
def monitorNetwork (args : List Word) : Vars :=
  let vars : Vars := fun _ => []
  vars.assign .failurePeriod (param args 1)
    |>.assign .pingHosts (param args 2)
    |>.assign .pingFrequencyInterval (param args 3)
    |>.assign .pingSize (param args 4)
    |>.assign .iface (param args 5)
    |>.assign .mmIfaceName (param args 6)
    |>.assign .mmIfaceUnlockBands (param args 7)
    |>.assign .logicalInterface (param args 8)
    |>.assign .addressFamily (param args 9)
    |>.assign .script (param args 10)

/-- The interface that is restarted. -/
inductive Restarted
  | logicalNetworkIface (name : Word)
  | networkIface (name : Word)
  | allNetwork
deriving DecidableEq

/-- What is done when the failure period has elapsed and there is no script to run: the
restart of ModemManager with its interface and flag, and the restart of an interface. -/
def restart (vars : Vars) : Option (Word × Word) × Restarted :=
  (if vars .mmIfaceName ≠ [] then some (vars .mmIfaceName, vars .mmIfaceUnlockBands) else none,
    if vars .logicalIface ≠ [] then .logicalNetworkIface (vars .logicalIface)
    else if vars .iface ≠ [] then .networkIface (vars .iface)
    else .allNetwork)

/-- The interface that is to be restarted: the logical one, else the physical one, else all. -/
def configuredRestart (c : Section) : Restarted :=
  if c.logicalInterface ≠ [] then .logicalNetworkIface c.logicalInterface
  else if c.interface ≠ [] then .networkIface c.interface
  else .allNetwork

/-- Every parameter of `watchcat_monitor_network` is the configured value. -/
structure ReceivesConfigured (c : Section) (vars : Vars) : Prop where
  period : vars .failurePeriod = c.period
  pinghosts : vars .pingHosts = c.pinghosts
  pingperiod : vars .pingFrequencyInterval = c.pingperiod
  pingsize : vars .pingSize = c.pingsize
  interface : vars .iface = c.interface
  mmifacename : vars .mmIfaceName = c.mmifacename
  unlockbands : vars .mmIfaceUnlockBands = c.unlockbands
  logicalInterface : vars .logicalInterface = c.logicalInterface
  addressfamily : vars .addressFamily = c.addressfamily
  script : vars .script = []

/-- Watchcat receives what is configured and restarts the interface that is configured, and an
instance with a script receives the script and the address family. -/
def ActsAsConfigured (functions : Functions) (s : Section) : Prop :=
  let c := configWatchcat functions s
  (∃ args, dispatch (restartIfaceCommand c) = some args ∧
      ReceivesConfigured c (monitorNetwork args) ∧
      (restart (monitorNetwork args)).2 = configuredRestart c) ∧
    ∃ args, dispatch (runScriptCommand c) = some args ∧
      monitorNetwork args .script = c.script ∧
      monitorNetwork args .addressFamily = c.addressfamily

/-! ### The positions -/

section Positions

variable (c : Section)

/-- The parameters from the command of `restart_iface` -/
def restartIfaceArgs : List Word :=
  [c.period, c.pinghosts, c.pingperiod, c.pingsize, c.interface, c.mmifacename, c.unlockbands,
    c.logicalInterface, c.addressfamily, []]

/-- The parameters from the command of `run_script` -/
def runScriptArgs : List Word :=
  [c.period, c.pinghosts, c.pingperiod, c.pingsize, c.interface, [], [], [], c.addressfamily,
    c.script]

private theorem dispatch_restartIface :
    dispatch (restartIfaceCommand c) = some (restartIfaceArgs c) :=
  if_pos rfl

private theorem dispatch_runScript : dispatch (runScriptCommand c) = some (runScriptArgs c) := by
  have hmode : param (runScriptCommand c) 1 = "run_script".toList := rfl
  have hne : "run_script".toList ≠ "restart_iface".toList := by decide
  rw [dispatch, hmode, if_neg hne, if_pos rfl]
  rfl

private theorem receivesConfigured : ReceivesConfigured c (monitorNetwork (restartIfaceArgs c)) :=
  { period := rfl
    pinghosts := rfl
    pingperiod := rfl
    pingsize := rfl
    interface := rfl
    mmifacename := rfl
    unlockbands := rfl
    logicalInterface := rfl
    addressfamily := rfl
    script := rfl }

/-- No assignment is to the variable that the decision looks at. -/
theorem logicalIface_eq_nil (args : List Word) : monitorNetwork args .logicalIface = [] := rfl

/-- So the decision is between the physical interface and the whole network. -/
theorem restart_snd :
    (restart (monitorNetwork (restartIfaceArgs c))).2 =
      if c.interface ≠ [] then .networkIface c.interface else .allNetwork := by
  have hnil := logicalIface_eq_nil (restartIfaceArgs c)
  have hiface := (receivesConfigured c).interface
  simp only [restart, hnil, hiface, ne_eq, not_true_eq_false, if_false]

private theorem restart_snd_iff :
    (restart (monitorNetwork (restartIfaceArgs c))).2 = configuredRestart c ↔
      c.logicalInterface = [] := by
  rw [restart_snd, configuredRestart]
  by_cases hlogical : c.logicalInterface = []
  · rw [if_neg (not_not.mpr hlogical)]
    exact iff_of_true rfl hlogical
  · rw [if_pos hlogical]
    refine iff_of_false (fun h => ?_) hlogical
    split at h
    · cases h
    · cases h

end Positions

/-- **Watchcat acts on the configured interface.** The parameters are always the configured ones,
and the interface that is restarted is the configured one exactly when no logical interface
is configured. -/
theorem actsAsConfigured_iff (functions : Functions) (s : Section) :
    ActsAsConfigured functions s ↔ s.logicalInterface = [] := by
  have hrun : ∃ args, dispatch (runScriptCommand (configWatchcat functions s)) = some args ∧
      monitorNetwork args .script = (configWatchcat functions s).script ∧
      monitorNetwork args .addressFamily = (configWatchcat functions s).addressfamily :=
    ⟨_, dispatch_runScript _, rfl, rfl⟩
  have hlogical : (configWatchcat functions s).logicalInterface = s.logicalInterface := rfl
  rw [ActsAsConfigured, and_iff_left hrun, ← hlogical]
  constructor
  · rintro ⟨args, hargs, -, hrestart⟩
    rw [dispatch_restartIface] at hargs
    rw [← Option.some.inj hargs] at hrestart
    exact (restart_snd_iff _).mp hrestart
  · intro hnil
    exact ⟨_, dispatch_restartIface _, receivesConfigured _, (restart_snd_iff _).mpr hnil⟩

/-- The functions on options that are not set. -/
private def defaults : Functions where
  configGet value default := if value.isEmpty then default else value
  configGetBool value default := if value.isEmpty then default else value

/-- An instance for a VPN over a physical interface -/
private def vpn : Section :=
  ⟨"6h".toList, "1.1.1.1".toList, "30s".toList, [], "eth2".toList, "vpn".toList, [], [], [], []⟩

/-- The physical interface is restarted instead of the logical one. -/
theorem logical_interface_ignored :
    (dispatch (restartIfaceCommand (configWatchcat defaults vpn))).map
        (fun args => (restart (monitorNetwork args)).2) = some (.networkIface "eth2".toList) ∧
      configuredRestart (configWatchcat defaults vpn) = .logicalNetworkIface "vpn".toList ∧
      ¬ActsAsConfigured defaults vpn := by
  have hrestart : (dispatch (restartIfaceCommand (configWatchcat defaults vpn))).map
      (fun args => (restart (monitorNetwork args)).2) = some (.networkIface "eth2".toList) := by
    decide
  refine ⟨hrestart, by decide, ?_⟩
  rintro ⟨⟨args, hargs, -, h⟩, -⟩
  rw [hargs, Option.map_some, h] at hrestart
  exact absurd hrestart (by decide)

end TurrisBuild.Watchcat
