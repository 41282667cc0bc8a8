import TurrisBuild.Turris1xLeds.Colors

/-!
# Software control of the LEDs

Two registers have a bit for every LED: whether software controls it at all, and whether
software has switched it off. The operations of one LED read and write all eight bits. When
the driver is removed before a reboot, it gives the LEDs back to the hardware.
-/

namespace TurrisBuild.Turris1xLeds

attribute [local instance] neZero_leds neZero_components

/-! ### Bits -/

/-- The bit of a LED in a register. -/
def hasBit (val : UInt8) (i : Fin 8) : Bool := val.toBitVec.getLsbD i

private theorem toBitVec_bit (i : Fin 8) : (bit i).toBitVec = BitVec.twoPow 8 i := by
  revert i
  decide

private theorem hasBit_bit (i j : Fin 8) : hasBit (bit j) i = decide (i = j) := by
  revert i j
  decide

private theorem and_bit_eq_zero_iff (val : UInt8) (i : Fin 8) :
    val &&& bit i = 0 ↔ hasBit val i = false := by
  rw [← UInt8.toBitVec_inj, UInt8.toBitVec_and, toBitVec_bit, BitVec.and_twoPow, hasBit]
  cases val.toBitVec.getLsbD i with
  | false => exact iff_of_true rfl rfl
  | true =>
    refine iff_of_false ?_ (by decide)
    revert i
    decide

/-- The bits after one is cleared. -/
@[simp] theorem hasBit_clear (val : UInt8) (i j : Fin 8) :
    hasBit (val &&& ~~~bit j) i = (hasBit val i && decide (i ≠ j)) := by
  have hbit := hasBit_bit i j
  rw [hasBit] at hbit
  rw [hasBit, UInt8.toBitVec_and, UInt8.toBitVec_not, BitVec.getLsbD_and, BitVec.getLsbD_not, hbit,
    ← hasBit]
  simp [i.isLt]

/-- The bits after one is set. -/
@[simp] theorem hasBit_set (val : UInt8) (i j : Fin 8) :
    hasBit (val ||| bit j) i = (hasBit val i || decide (i = j)) := by
  have hbit := hasBit_bit i j
  rw [hasBit] at hbit
  rw [hasBit, UInt8.toBitVec_or, BitVec.getLsbD_or, hbit, ← hasBit]

/-- Software controls the LED. -/
def Leds.override (s : Leds) (i : Fin 8) : Bool := hasBit (s.regs swOverrideReg) i

/-- Software has switched the LED off. -/
def Leds.disabled (s : Leds) (i : Fin 8) : Bool := hasBit (s.regs swDisableReg) i

private theorem brightnessGet_eq {s : Leds} {i : Fin 8} (hreg : (s.leds i).reg = i) :
    brightnessGet s i = if s.override i && s.disabled i then 0 else 1 := by
  rw [brightnessGet, hreg, Leds.override, Leds.disabled]
  simp only [and_bit_eq_zero_iff]
  cases hasBit (s.regs swOverrideReg) i with
  | false => rfl
  | true =>
    cases hasBit (s.regs swDisableReg) i with
    | false => rfl
    | true => rfl

/-! ### What an operation does to the bits -/

private theorem swDisableReg_ne : swDisableReg ≠ swOverrideReg := by decide

section Control

variable (led : Led) (regs : Regs)

private theorem writeColor_override : writeColor led regs swOverrideReg = regs swOverrideReg := by
  have hne : ∀ c : Fin 3, swOverrideReg ≠ brightnessReg led.reg c :=
    fun c => (brightnessReg_lt led.reg c).1.ne'
  simp only [writeColor, List.foldl_cons, List.foldl_nil]
  rw [writeb_of_ne (hne 2), writeb_of_ne (hne 1), writeb_of_ne (hne 0)]

private theorem writeColor_disable : writeColor led regs swDisableReg = regs swDisableReg := by
  have hne : ∀ c : Fin 3, swDisableReg ≠ brightnessReg led.reg c :=
    fun c => (brightnessReg_lt led.reg c).2.ne'
  simp only [writeColor, List.foldl_cons, List.foldl_nil]
  rw [writeb_of_ne (hne 2), writeb_of_ne (hne 1), writeb_of_ne (hne 0)]

private theorem setDisable_override (reg brightness : ℕ) :
    setDisable reg brightness regs swOverrideReg = regs swOverrideReg := by
  unfold setDisable
  split
  · exact writeb_of_ne swDisableReg_ne.symm _ _
  · split
    · exact writeb_of_ne swDisableReg_ne.symm _ _
    · rfl

/-- A LED is switched off or on in its own bit only. -/
theorem hasBit_setDisable (i j : Fin 8) (brightness : ℕ) :
    hasBit (setDisable j brightness regs swDisableReg) i =
      if i = j then decide (brightness = 0) else hasBit (regs swDisableReg) i := by
  unfold setDisable
  simp only [ne_eq, and_bit_eq_zero_iff, Bool.not_eq_false]
  split
  · next h =>
    rw [writeb, Function.update_self, hasBit_clear]
    split
    · next heq => simp [heq, h.1]
    · next hne => simp [hne]
  · next hoff =>
    split
    · next h =>
      rw [writeb, Function.update_self, hasBit_set]
      split
      · next heq => simp [heq, h.1]
      · next hne => simp [hne]
    · next hon =>
      -- The bit is already what it should be.
      split
      · next heq =>
        subst heq
        by_cases hzero : brightness = 0
        · simpa [hzero] using hon
        · simpa [hzero] using hoff
      · rfl

end Control

/-- What never changes of a registered LED. -/
def SameDevice (led led' : Led) : Prop :=
  led'.registered = led.registered ∧ led'.hwTrigger = led.hwTrigger

section BrightnessSet

variable (s : Leds) (i j : Fin 8) (brightness : ℕ)

private theorem sameDevice_setColor : SameDevice (s.leds j) ((setColor s i brightness).leds j) := by
  rcases eq_or_ne j i with rfl | hne
  · rw [leds_setColor_self]
    exact ⟨rfl, rfl⟩
  · rw [leds_setColor_of_ne hne]
    split
    · exact ⟨rfl, rfl⟩
    · exact ⟨rfl, rfl⟩

private theorem sameDevice_brightnessSet :
    SameDevice (s.leds j) ((brightnessSet s i brightness).leds j) := by
  unfold brightnessSet
  split
  · exact sameDevice_setColor s i j brightness
  · exact ⟨rfl, rfl⟩

private theorem override_brightnessSet :
    (brightnessSet s i brightness).override j = s.override j := by
  unfold brightnessSet
  simp only [Leds.override, setDisable_override]
  split
  · exact congrArg (hasBit · j) (writeColor_override _ s.regs)
  · rfl

private theorem disabled_brightnessSet {s : Leds} {i : Fin 8} (hreg : (s.leds i).reg = i) :
    (brightnessSet s i brightness).disabled j =
      if j = i then decide (brightness = 0) else s.disabled j := by
  unfold brightnessSet
  simp only [Leds.disabled, hreg, hasBit_setDisable]
  split
  · rfl
  · split
    · exact congrArg (hasBit · j) (writeColor_disable _ s.regs)
    · rfl

private theorem override_ledSetBrightness :
    (ledSetBrightness s i brightness).override j = s.override j := by
  rw [ledSetBrightness, override_brightnessSet]
  rfl

private theorem disabled_ledSetBrightness {s : Leds} {i : Fin 8} (hreg : (s.leds i).reg = i) :
    (ledSetBrightness s i brightness).disabled j =
      if j = i then decide (brightness = 0) else s.disabled j := by
  rw [ledSetBrightness, disabled_brightnessSet]
  · rfl
  · rwa [leds_update_self]

private theorem sameDevice_update {s : Leds} {i : Fin 8} {led : Led} (h : SameDevice (s.leds i) led)
    (j : Fin 8) : SameDevice (s.leds j) ((s.update i led).leds j) := by
  rcases eq_or_ne j i with rfl | hne
  · rwa [leds_update_self]
  · rw [leds_update_of_ne hne]
    exact ⟨rfl, rfl⟩

/-- What stays of a LED over two steps. -/
theorem SameDevice.trans {led led' led'' : Led} (h : SameDevice led led')
    (h' : SameDevice led' led'') : SameDevice led led'' :=
  ⟨h'.1.trans h.1, h'.2.trans h.2⟩

private theorem sameDevice_ledSetBrightness :
    SameDevice (s.leds j) ((ledSetBrightness s i brightness).leds j) := by
  rw [ledSetBrightness]
  refine SameDevice.trans (sameDevice_update ?_ j) (sameDevice_brightnessSet _ i j brightness)
  exact ⟨rfl, rfl⟩

end BrightnessSet

def Operation.Registers : Operation → Prop
  | .register _ => True
  | _ => False

/-- An operation that registers LED 6. -/
def Operation.RegistersSix : Operation → Prop
  | .register node => node.reg = some 6
  | _ => False

/-- An operation that sets the brightness of a LED. -/
def Operation.Sets (i : Fin 8) : Operation → Prop
  | .brightness j _ => j = i
  | .color j _ => j = i
  | _ => False

/-- Who controls a LED after an operation that decides about it. -/
def Operation.switch (i : Fin 8) : Operation → Option Bool
  | .activate j => if j = i then some false else none
  | .deactivate j => if j = i then some true else none
  | _ => none

/-- A node that is not refused registers one LED, with the colour that its registers have. -/
theorem register_spec {s t : Leds} {node : Node} (hregister : register s node = .ok t) :
    ∃ (i : Fin 8) (led : Led), node.reg = some i.val ∧ (s.leds i).registered = false ∧
      led.registered = true ∧ led.hwTrigger = decide (i ≠ 6) ∧
      (led.intensity = fun c : Fin 3 => (s.regs (brightnessReg i c)).toNat) ∧
      t = { s with regs := (registerRegs s i).2.2 }.update i led := by
  rw [register] at hregister
  cases hreg : node.reg with
  | none =>
    rw [hreg] at hregister
    cases hregister
  | some reg =>
    rw [hreg] at hregister
    simp only at hregister
    split at hregister
    · next hlt =>
      split at hregister
      · cases hregister
      split at hregister
      · cases hregister
      · next hfree =>
        have hsix : (⟨reg, hlt⟩ : Fin 8) = 6 ↔ reg = 6 := Fin.ext_iff
        exact ⟨⟨reg, hlt⟩, _, rfl, Bool.eq_false_iff.mpr hfree, rfl,
          decide_eq_decide.mpr (not_congr hsix.symm), rfl, (Except.ok.inj hregister).symm⟩
    · cases hregister

/-- Only LED 6 has registers to be set. -/
theorem registerRegs_of_ne (s : Leds) {i : Fin 8} (hne : i ≠ 6) :
    (registerRegs s i).2.2 = s.regs := by
  have hval : ¬(i.val = 6 ∧ s.valSwOverride &&& bit 6 = 0) := fun h => hne (Fin.ext h.1)
  have hregs : registerRegs s i = (s.valSwOverride, s.valSwDisable, s.regs) := if_neg hval
  rw [hregs]

/-- What an operation does to a registered LED: it stays the same device, its bit for the
software control is changed by its own trigger, and its other bit when its brightness is set. -/
structure StepsTo (i : Fin 8) (s : Leds) (op : Operation) (t : Leds) : Prop where
  same : SameDevice (s.leds i) (t.leds i)
  override_eq : t.override i =
    if (s.leds i).hwTrigger then (op.switch i).getD (s.override i) else s.override i
  disabled_eq : ¬op.Sets i → t.disabled i = s.disabled i

/-- Most operations leave it to the triggers who controls a LED. -/
theorem StepsTo.of_override {i : Fin 8} {s t : Leds} {op : Operation} (hop : op.switch i = none)
    (hsame : SameDevice (s.leds i) (t.leds i)) (hoverride : t.override i = s.override i)
    (hdisabled : ¬op.Sets i → t.disabled i = s.disabled i) : StepsTo i s op t where
  same := hsame
  override_eq := by rw [hop, Option.getD_none, ite_self, hoverride]
  disabled_eq := hdisabled

/-- An operation without effect on a LED. -/
theorem StepsTo.refl {i : Fin 8} {s : Leds} {op : Operation} (hop : op.switch i = none) :
    StepsTo i s op s :=
  .of_override hop ⟨rfl, rfl⟩ rfl fun _ => rfl

section Trigger

variable (s : Leds) (i : Fin 8) {j : Fin 8}

private theorem override_hwtrigActivate (hreg : (s.leds j).reg = j) :
    (hwtrigActivate s j).override i = if j = i then false else s.override i := by
  rw [Leds.override, hwtrigActivate, hreg, writeb]
  simp only [Function.update_self, hasBit_clear, Leds.override]
  rcases eq_or_ne j i with rfl | hne
  · simp
  · simp [hne, hne.symm]

private theorem override_hwtrigDeactivate (hreg : (s.leds j).reg = j) :
    (hwtrigDeactivate s j).override i = if j = i then true else s.override i := by
  rw [Leds.override, hwtrigDeactivate, hreg, writeb]
  simp only [Function.update_self, hasBit_set, Leds.override]
  rcases eq_or_ne j i with rfl | hne
  · simp
  · simp [hne, hne.symm]

private theorem disabled_writeOverride (val : UInt8) :
    Leds.disabled { s with regs := writeb val swOverrideReg s.regs } i = s.disabled i :=
  congrArg (hasBit · i) (writeb_of_ne swDisableReg_ne val s.regs)

/-- A LED that has the trigger is switched by its own trigger. -/
theorem switched (hj : (s.leds j).hwTrigger = true) (on current : Bool) :
    (if j = i then on else current) =
      if (s.leds i).hwTrigger then (if j = i then some on else none).getD current else current := by
  rcases eq_or_ne j i with rfl | hne
  · rw [if_pos rfl, if_pos rfl, if_pos hj, Option.getD_some]
  · rw [if_neg hne, if_neg hne, Option.getD_none, ite_self]

/-- A trigger that a LED does not have switches nothing. -/
theorem not_switched (hi : (s.leds i).hwTrigger = true → (s.leds i).registered = true)
    (hj : ¬((s.leds j).registered = true ∧ (s.leds j).hwTrigger = true)) (on current : Bool) :
    current =
      if (s.leds i).hwTrigger then (if j = i then some on else none).getD current else current := by
  rcases eq_or_ne j i with rfl | hne
  · rw [if_neg fun htrigger => hj ⟨hi htrigger, htrigger⟩]
  · rw [if_neg hne, Option.getD_none, ite_self]

end Trigger

/-- A LED that has the trigger is registered, and all have it but LED 6. -/
def HasTriggers (s : Leds) : Prop :=
  ∀ i, (s.leds i).hwTrigger = ((s.leds i).registered && decide (i ≠ 6))

private theorem stepsTo_step {s : Leds} (h : WellFormed s) {i : Fin 8}
    (hi : (s.leds i).hwTrigger = true → (s.leds i).registered = true) {op : Operation}
    (hop : ¬op.Registers) : StepsTo i s op (step s op) := by
  have hreg : ∀ j, (s.leds j).registered = true → (s.leds j).reg = j := by
    intro j hj
    rw [h.reg_eq, if_pos hj]
  cases op with
  | register node => exact absurd trivial hop
  | brightness j on =>
    rw [step]
    split
    · next hj =>
      refine .of_override rfl (sameDevice_ledSetBrightness s j i _)
        (override_ledSetBrightness s j i _) fun hne => ?_
      rw [disabled_ledSetBrightness _ _ (hreg j hj), if_neg fun heq => hne heq.symm]
    · exact .refl rfl
  | color j components =>
    rw [step]
    split
    · next hj =>
      have hupdate : SameDevice (s.leds j)
          { s.leds j with intensity := fun c => (components c).toNat } := ⟨rfl, rfl⟩
      refine .of_override rfl
        ((sameDevice_update hupdate i).trans (sameDevice_ledSetBrightness _ j i _))
        (override_ledSetBrightness _ j i _) fun hne => ?_
      rw [disabled_ledSetBrightness, if_neg fun heq => hne heq.symm]
      · rfl
      · rw [leds_update_self]
        exact hreg j hj
    · exact .refl rfl
  | activate j =>
    rw [step]
    split
    · next hj =>
      refine ⟨⟨rfl, rfl⟩, ?_, fun _ => disabled_writeOverride s i _⟩
      rw [override_hwtrigActivate s i (hreg j hj.1)]
      exact switched s i hj.2 false (s.override i)
    · next hj => exact ⟨⟨rfl, rfl⟩, not_switched s i hi hj false (s.override i), fun _ => rfl⟩
  | deactivate j =>
    rw [step]
    split
    · next hj =>
      refine ⟨⟨rfl, rfl⟩, ?_, fun _ => disabled_writeOverride s i _⟩
      rw [override_hwtrigDeactivate s i (hreg j hj.1)]
      exact switched s i hj.2 true (s.override i)
    · next hj => exact ⟨⟨rfl, rfl⟩, not_switched s i hi hj true (s.override i), fun _ => rfl⟩
  | updateBrightness j =>
    rw [step]
    split
    · refine .of_override rfl (sameDevice_update ?_ i) rfl fun _ => rfl
      exact ⟨rfl, rfl⟩
    · exact .refl rfl

/-- A LED that is registered stays as it is when another one is registered, except that all are
affected by LED 6. -/
theorem stepsTo_register {s : Leds} {i : Fin 8} (hi : (s.leds i).registered = true) {node : Node}
    (hsix : node.reg = some 6 → (s.leds 6).registered = true) :
    StepsTo i s (.register node) (step s (.register node)) := by
  rw [step]
  split
  · next t hregister =>
    obtain ⟨j, led, hnode, hfree, -, -, -, rfl⟩ := register_spec hregister
    have hne : j ≠ 6 := by
      rintro rfl
      rw [hsix hnode] at hfree
      cases hfree
    have hother : i ≠ j := by
      rintro rfl
      rw [hi] at hfree
      cases hfree
    refine .of_override rfl ?_ ?_ fun _ => ?_
    · rw [leds_update_of_ne hother]
      exact ⟨rfl, rfl⟩
    · exact congrArg (fun regs : Regs => hasBit (regs swOverrideReg) i) (registerRegs_of_ne s hne)
    · exact congrArg (fun regs : Regs => hasBit (regs swDisableReg) i) (registerRegs_of_ne s hne)
  · exact .refl rfl

/-! ### LED 6 -/

/-- Software controls LED 6 once it is registered, or when the driver has found it so. -/
def ControlsSix (s : Leds) : Prop :=
  (s.leds 6).registered = true ∨ hasBit s.valSwOverride 6 = true → s.override 6 = true

/-- The invariant of the software control. -/
structure Controlled (s : Leds) : Prop where
  showsColors : ShowsColors s
  hasTriggers : HasTriggers s
  controlsSix : ControlsSix s

private theorem override_registerRegs_six (s : Leds)
    (h : hasBit s.valSwOverride 6 = true → s.override 6) :
    hasBit ((registerRegs s 6).2.2 swOverrideReg) 6 = true := by
  have hset : hasBit (s.valSwOverride ||| bit 6) 6 = true := by
    rw [show (6 : ℕ) = (6 : Fin 8).val from rfl, hasBit_set, decide_eq_true rfl, Bool.or_true]
  unfold registerRegs
  split
  · split
    · simp only [writeb, Function.update_self, hset]
    · simp only [writeb, Function.update_self, hset]
  · next hfound =>
    refine h ?_
    by_contra hbit
    exact hfound ⟨rfl, (and_bit_eq_zero_iff s.valSwOverride 6).mpr (Bool.eq_false_iff.mpr hbit)⟩

private theorem valSwOverride_step (s : Leds) (op : Operation) :
    (step s op).valSwOverride = s.valSwOverride := by
  cases op with
  | register node =>
    rw [step]
    split
    · next hregister =>
      obtain ⟨i, led, -, -, -, -, -, rfl⟩ := register_spec hregister
      rfl
    · rfl
  | brightness i on =>
    rw [step]
    split
    · rw [ledSetBrightness, brightnessSet]
      split <;> rfl
    · rfl
  | color i components =>
    rw [step]
    split
    · rw [ledSetBrightness, brightnessSet]
      split <;> rfl
    · rfl
  | activate i =>
    rw [step]
    split <;> rfl
  | deactivate i =>
    rw [step]
    split <;> rfl
  | updateBrightness i =>
    rw [step]
    split <;> rfl

private theorem controlled_register {s t : Leds} {node : Node} (h : Controlled s)
    (hregister : register s node = .ok t) : HasTriggers t ∧ ControlsSix t := by
  obtain ⟨i, led, -, hfree, hregistered, htrigger, -, rfl⟩ := register_spec hregister
  refine ⟨fun j => ?_, fun hsix => ?_⟩
  · rcases eq_or_ne j i with rfl | hne
    · rw [leds_update_self, htrigger, hregistered, Bool.true_and]
    · rw [leds_update_of_ne hne]
      exact h.hasTriggers j
  · rcases eq_or_ne i 6 with rfl | hne
    · exact override_registerRegs_six s fun hbit => h.controlsSix (.inr hbit)
    · rw [leds_update_of_ne hne.symm] at hsix
      have hregs := congrArg (fun regs : Regs => hasBit (regs swOverrideReg) 6)
        (registerRegs_of_ne s hne)
      exact hregs.trans (h.controlsSix hsix)

private theorem controlled_step {s : Leds} (h : Controlled s) (op : Operation) :
    HasTriggers (step s op) ∧ ControlsSix (step s op) := by
  by_cases hop : op.Registers
  · cases op with
    | register node =>
      rw [step]
      split
      · next hregister => exact controlled_register h hregister
      · exact ⟨h.hasTriggers, h.controlsSix⟩
    | _ => cases hop
  · have hregistered : ∀ i, (s.leds i).hwTrigger = true → (s.leds i).registered = true := by
      intro i hi
      rw [h.hasTriggers i, Bool.and_eq_true] at hi
      exact hi.1
    have hsteps := fun i => stepsTo_step h.showsColors.1 (hregistered i) hop
    refine ⟨fun i => ?_, fun hsix => ?_⟩
    · rw [(hsteps i).same.1, (hsteps i).same.2]
      exact h.hasTriggers i
    · rw [(hsteps 6).same.1, valSwOverride_step] at hsix
      have htrigger : (s.leds 6).hwTrigger = false := by
        rw [h.hasTriggers 6]
        exact Bool.and_false _
      rw [(hsteps 6).override_eq, htrigger]
      exact h.controlsSix hsix

/-- Every operation keeps the control of the LEDs. -/
theorem Controlled.step {s : Leds} (h : Controlled s) (op : Operation) :
    Controlled (Turris1xLeds.step s op) where
  showsColors := showsColors_step h.showsColors op
  hasTriggers := (controlled_step h op).1
  controlsSix := (controlled_step h op).2

private theorem controlled_probe (regs : Regs) : Controlled (probe regs) where
  showsColors := showsColors_probe regs
  hasTriggers _ := rfl
  controlsSix hsix := hsix.resolve_left Bool.false_ne_true

private theorem controlled_run (regs : Regs) (ops : List Operation) :
    Controlled (ops.foldl step (probe regs)) :=
  List.foldlRecOn ops step (controlled_probe regs) fun _ h op _ => h.step op

/-! ### The brightness that is read -/

/-- Who controls a LED after operations, from who does before. -/
def lastSwitch (i : Fin 8) (ops : List Operation) (override : Bool) : Bool :=
  ops.foldl (fun override op => (op.switch i).getD override) override

/-- Operations that do not set the brightness of a LED, and do not register LED 6 unless it has
been registered before. -/
def Leaves (i : Fin 8) (s : Leds) (ops : List Operation) : Prop :=
  ∀ op ∈ ops, ¬op.Sets i ∧ (op.RegistersSix → (s.leds 6).registered = true)

section Run

variable {s : Leds} {i : Fin 8}

private theorem stepsTo_of_controlled (h : Controlled s) (hi : (s.leds i).registered = true)
    {op : Operation} (hsix : op.RegistersSix → (s.leds 6).registered = true) :
    StepsTo i s op (step s op) := by
  by_cases hop : op.Registers
  · cases op with
    | register node => exact stepsTo_register hi hsix
    | _ => cases hop
  · exact stepsTo_step h.showsColors.1 (fun _ => hi) hop

/-- What operations do to a registered LED. -/
theorem run_spec {ops : List Operation} (h : Controlled s)
    (hi : (s.leds i).registered = true) (hops : Leaves i s ops) :
    (ops.foldl step s).override i =
        (if i = 6 then true else lastSwitch i ops (s.override i)) ∧
      (ops.foldl step s).disabled i = s.disabled i ∧
      ((ops.foldl step s).leds i).registered = true := by
  induction ops generalizing s with
  | nil =>
    refine ⟨?_, rfl, hi⟩
    split
    · next hsix =>
      subst hsix
      exact h.controlsSix (.inl hi)
    · rfl
  | cons op ops ih =>
    obtain ⟨⟨hsets, hsix⟩, hops⟩ := List.forall_mem_cons.mp hops
    have hstep := stepsTo_of_controlled h hi hsix
    have hregistered : ∀ j, (s.leds j).registered = true →
        ((step s op).leds j).registered = true :=
      fun j hj => (stepsTo_of_controlled h hj hsix).same.1.trans hj
    have hleaves : Leaves i (step s op) ops :=
      fun op' hop' => ⟨(hops op' hop').1, fun hsix' => hregistered 6 ((hops op' hop').2 hsix')⟩
    obtain ⟨hoverride, hdisabled, hrun⟩ := ih (h.step op) (hregistered i hi) hleaves
    refine ⟨?_, hdisabled.trans (hstep.disabled_eq hsets), hrun⟩
    rw [List.foldl_cons, hoverride, hstep.override_eq, h.hasTriggers i, hi, Bool.true_and]
    split
    · rfl
    · next hne => rw [decide_eq_true hne, if_pos rfl, lastSwitch, lastSwitch, List.foldl_cons]

end Run

/-- A brightness that was set is read when software controls the LED. -/
private theorem brightness_of_bits (controlled on : Bool) :
    (if (controlled && decide ((if on = true then 1 else 0) = 0)) = true then 0 else 1) =
      if controlled = true then if on = true then 1 else 0 else 1 := by
  revert controlled on
  decide

/-- **The brightness of a LED is read as it was set.** This holds as long as software controls the
LED, whatever is done to other LEDs and triggers in between, and while the hardware does it the
LED reads as on. Nothing is assumed of what was done before, but LED 6 must not be registered
later. -/
theorem brightness_read_back (regs : Regs) (before after : List Operation) (i : Fin 8) (on : Bool)
    (hi : ((before.foldl step (probe regs)).leds i).registered = true)
    (hafter : Leaves i (before.foldl step (probe regs)) after) :
    brightnessGet ((before ++ .brightness i on :: after).foldl step (probe regs)) i =
      if i = 6 ∨ lastSwitch i after ((before.foldl step (probe regs)).override i) = true then
        if on then 1 else 0
      else 1 := by
  rw [List.foldl_append, List.foldl_cons]
  have hcontrolled := controlled_run regs before
  generalize before.foldl step (probe regs) = s at hi hafter hcontrolled ⊢
  have hreg : (s.leds i).reg = i := by
    rw [hcontrolled.showsColors.1.reg_eq, if_pos hi]
  have hset : step s (.brightness i on) = ledSetBrightness s i (if on then 1 else 0) := if_pos hi
  have hsame : ∀ j, SameDevice (s.leds j) ((step s (.brightness i on)).leds j) := by
    intro j
    rw [hset]
    exact sameDevice_ledSetBrightness s i j _
  have hregistered : ((step s (.brightness i on)).leds i).registered = true :=
    (hsame i).1.trans hi
  have hleaves : Leaves i (step s (.brightness i on)) after :=
    fun op hop => ⟨(hafter op hop).1, fun hsix => (hsame 6).1.trans ((hafter op hop).2 hsix)⟩
  obtain ⟨hoverride, hdisabled, hafterwards⟩ :=
    run_spec (hcontrolled.step (.brightness i on)) hregistered hleaves
  have hrun : Controlled (after.foldl step (step s (.brightness i on))) :=
    List.foldlRecOn after step (hcontrolled.step _) fun _ h op _ => h.step op
  rw [brightnessGet_eq (by rw [hrun.showsColors.1.reg_eq, if_pos hafterwards]), hoverride,
    hdisabled, hset, override_ledSetBrightness, disabled_ledSetBrightness _ _ hreg, if_pos rfl,
    brightness_of_bits]
  refine if_congr ?_ rfl rfl
  split
  · next hsix => exact iff_of_true rfl (.inl hsix)
  · next hne => exact (or_iff_right hne).symm

/-- The brightness of a LED that was switched off before. -/
theorem brightness_read_back_lan :
    let before : List Operation := [.register ⟨some 1, true⟩, .deactivate 1]
    let after : List Operation := [.register ⟨some 2, true⟩, .deactivate 2, .brightness 2 true]
    brightnessGet ((before ++ .brightness 1 false :: after).foldl step (probe fun _ => 0)) 1 =
      0 := by
  intro before after
  have hleaves : Leaves 1 (before.foldl step (probe fun _ => 0)) after := by
    intro op hop
    unfold after at hop
    simp only [List.mem_cons, List.not_mem_nil, or_false] at hop
    rcases hop with rfl | rfl | rfl
    · exact ⟨id, fun hsix => absurd (Option.some.inj hsix) (by decide)⟩
    · exact ⟨id, fun hsix => hsix.elim⟩
    · exact ⟨fun heq : (2 : Fin 8) = 1 => absurd heq (by decide), fun hsix => hsix.elim⟩
  rw [brightness_read_back (fun _ => 0) _ _ 1 false (by decide) hleaves]
  decide

/-- LED 6 is registered with what the driver has read first, and LED 0 is switched on again. -/
example :
    let s := [.register ⟨some 0, true⟩, .deactivate 0, .brightness 0 false].foldl step
      (probe fun _ => 0)
    brightnessGet s 0 = 0 ∧ brightnessGet (step s (.register ⟨some 6, true⟩)) 0 = 1 := by
  decide

/-! ### Shutdown -/

/-- `turris1x_leds_shutdown` resets the colour of a LED. -/
def resetColor (regs : Regs) (i : ℕ) : Regs :=
  if 2 ≤ i ∧ i ≤ 5 then regs
  else [0, 1, 2].foldl (fun regs (c : Fin 3) => writeb 0xff (brightnessReg i c) regs) regs

/-- `turris1x_leds_shutdown` -/
def shutdown (s : Leds) : Regs :=
  let regs := writeb (bit 6) swOverrideReg s.regs
  let val := regs swDisableReg
  let regs := writeb (val ||| bit 6) swDisableReg regs
  (List.range 8).foldl resetColor regs

private theorem resetColor_of_lt {regs : Regs} {off : ℕ}
    (h : ∀ idx (c : Fin 3), brightnessReg idx c ≠ off)
    (i : ℕ) : resetColor regs i off = regs off := by
  unfold resetColor
  split
  · rfl
  · simp only [List.foldl_cons, List.foldl_nil]
    rw [writeb_of_ne (h i 2).symm, writeb_of_ne (h i 1).symm, writeb_of_ne (h i 0).symm]

private theorem shutdown_of_ne {s : Leds} {off : ℕ}
    (h : ∀ idx (c : Fin 3), brightnessReg idx c ≠ off) :
    shutdown s off =
      writeb (s.regs swDisableReg ||| bit 6) swDisableReg (writeb (bit 6) swOverrideReg s.regs)
        off := by
  rw [shutdown]
  simp only [writeb_of_ne swDisableReg_ne]
  refine List.foldlRecOn (motive := fun regs' : Regs => regs' off = _) (List.range 8) resetColor
    rfl fun regs hregs i _ => ?_
  rw [resetColor_of_lt h, hregs]

private theorem shutdown_override (s : Leds) : shutdown s swOverrideReg = bit 6 := by
  rw [shutdown_of_ne fun idx c => (brightnessReg_lt idx c).1.ne, writeb_of_ne swDisableReg_ne.symm,
    writeb, Function.update_self]

private theorem shutdown_disable (s : Leds) :
    shutdown s swDisableReg = s.regs swDisableReg ||| bit 6 := by
  rw [shutdown_of_ne fun idx c => (brightnessReg_lt idx c).2.ne, writeb, Function.update_self]

/-- A register keeps the default colour when another LED is reset. -/
theorem resetColor_default {regs : Regs} {off : ℕ} (h : regs off = 255) (i : ℕ) :
    resetColor regs i off = 255 := by
  have hwrite : ∀ (regs' : Regs) (off' : ℕ), regs' off = 255 → writeb 255 off' regs' off = 255 := by
    intro regs' off' hregs'
    rw [writeb, Function.update_apply]
    split
    · rfl
    · exact hregs'
  unfold resetColor
  split
  · exact h
  · exact List.foldlRecOn (motive := fun regs' : Regs => regs' off = 255) _ _ h
      fun regs' hregs' c _ => hwrite regs' _ hregs'

private theorem resetColor_self (regs : Regs) {i : ℕ} (hi : ¬(2 ≤ i ∧ i ≤ 5)) (c : Fin 3) :
    resetColor regs i (brightnessReg i c) = 255 := by
  have hc : c = 0 ∨ c = 1 ∨ c = 2 := by
    revert c
    decide
  rw [resetColor, if_neg hi]
  simp only [List.foldl_cons, List.foldl_nil, writeb, Function.update_apply, brightnessReg_eq_iff,
    true_and]
  rcases hc with rfl | rfl | rfl
  · rfl
  · rfl
  · rfl

private theorem resetColors {is : List ℕ} {i : ℕ} (hmem : i ∈ is) (hi : ¬(2 ≤ i ∧ i ≤ 5))
    (c : Fin 3)
    (regs : Regs) : is.foldl resetColor regs (brightnessReg i c) = 255 := by
  induction is generalizing regs with
  | nil => cases hmem
  | cons j is ih =>
    rw [List.foldl_cons]
    rcases List.mem_cons.mp hmem with rfl | hmem
    · exact List.foldlRecOn (motive := fun regs' : Regs => regs' (brightnessReg i c) = 255) is _
        (resetColor_self regs hi c) fun regs' hregs' j _ => resetColor_default hregs' j
    · exact ih hmem _

/-- LAN LEDs that are skipped have the registers of the first one. -/
theorem shutdown_color (s : Leds) (i : Fin 8) (c : Fin 3) :
    shutdown s (brightnessReg i c) = 255 := by
  rw [shutdown]
  by_cases hi : 2 ≤ i.val ∧ i.val ≤ 5
  · have hoff : brightnessOff i = brightnessOff 1 := by
      revert i
      decide
    rw [brightnessReg_eq_iff.mpr ⟨hoff, rfl⟩]
    exact resetColors (List.mem_range.mpr (by decide)) (by decide) c _
  · exact resetColors (List.mem_range.mpr i.isLt) hi c _

/-- A driver that has started after the shutdown of another one, and has changed nothing. -/
structure Default (s t : Leds) : Prop where
  regs_eq : t.regs = shutdown s
  valSwOverride_eq : t.valSwOverride = bit 6
  intensity_eq : ∀ i, (t.leds i).registered = true → ∀ c, (t.leds i).intensity c = 255

private theorem default_probe (s : Leds) : Default s (probe (shutdown s)) where
  regs_eq := rfl
  valSwOverride_eq := shutdown_override s
  intensity_eq i hi := by cases hi

private theorem default_register {s t : Leds} (h : Default s t) (node : Node) :
    Default s (step t (.register node)) := by
  rw [step]
  split
  · next hregister =>
    obtain ⟨i, led, -, -, -, -, hintensity, rfl⟩ := register_spec hregister
    have hset : ¬(i.val = 6 ∧ t.valSwOverride &&& bit 6 = 0) := by
      rw [h.valSwOverride_eq]
      exact fun hsix => absurd hsix.2 (by decide)
    have hregs : registerRegs t i = (t.valSwOverride, t.valSwDisable, t.regs) := if_neg hset
    refine ⟨?_, h.valSwOverride_eq, fun j hj c => ?_⟩
    · rw [hregs]
      exact h.regs_eq
    · rcases eq_or_ne j i with rfl | hne
      · rw [leds_update_self, hintensity, h.regs_eq]
        exact congrArg UInt8.toNat (shutdown_color s j c)
      · rw [leds_update_of_ne hne] at hj ⊢
        exact h.intensity_eq j hj c
  · exact h

/-- **The shutdown leaves the default state.** The driver that starts after it finds, for every
LED that it registers, the colour white and the hardware in control, except for LED 6, which
is off, and it does not have to change a register. -/
theorem shutdown_default (s : Leds) (nodes : List Node) :
    let t := (nodes.map Operation.register).foldl step (probe (shutdown s))
    t.regs = shutdown s ∧ ∀ i, (t.leds i).registered = true →
      (∀ c, (t.leds i).intensity c = 255) ∧ t.override i = decide (i = 6) ∧
        brightnessGet t i = if i = 6 then 0 else 1 := by
  intro t
  have hdefault : Default s t := by
    refine List.foldlRecOn _ step (default_probe s) fun t' ht' op hop => ?_
    obtain ⟨node, -, rfl⟩ := List.mem_map.mp hop
    exact default_register ht' node
  refine ⟨hdefault.regs_eq, fun i hi => ⟨hdefault.intensity_eq i hi, ?_⟩⟩
  have hcontrolled : Controlled t := controlled_run (shutdown s) _
  have hoverride : t.override i = decide (i = 6) := by
    rw [Leds.override, hdefault.regs_eq, shutdown_override]
    exact hasBit_bit i 6
  have hdisabled : t.disabled i = (s.disabled i || decide (i = 6)) := by
    rw [Leds.disabled, hdefault.regs_eq, shutdown_disable]
    exact hasBit_set (s.regs swDisableReg) i 6
  refine ⟨hoverride, ?_⟩
  rw [brightnessGet_eq (by rw [hcontrolled.showsColors.1.reg_eq, if_pos hi]), hoverride, hdisabled]
  by_cases hsix : i = 6
  · simp [hsix]
  · simp [hsix]

end TurrisBuild.Turris1xLeds
