import TurrisBuild.Turris1xLeds.Driver

/-!
# The colours that the LEDs show

Every LED that is lit has its own copy of the colour in its registers, although a LAN LED
writes to the registers of the other ones. The invariant leaves out a LED only while its
brightness is being set.
-/

namespace TurrisBuild.Turris1xLeds

/-! ### Registers of a colour -/

/-- The registers of a LED follow one another. -/
theorem brightnessReg_eq (idx : ℕ) (c : Fin 3) :
    brightnessReg idx c = 3 * brightnessOff idx + c := by
  have hc := c.isLt
  rw [brightnessReg, regOff, Nat.mod_eq_of_lt (by omega)]
  omega

/-- There are four groups of registers at most. -/
theorem brightnessOff_le (idx : ℕ) : brightnessOff idx ≤ 3 := by
  unfold brightnessOff
  split
  · omega
  · split <;> omega

/-- LEDs have a register together when they have the same set, and for the same component. -/
theorem brightnessReg_eq_iff {i j : ℕ} {c d : Fin 3} :
    brightnessReg i c = brightnessReg j d ↔ brightnessOff i = brightnessOff j ∧ c = d := by
  have hc := c.isLt
  have hd := d.isLt
  rw [brightnessReg_eq, brightnessReg_eq, Fin.ext_iff]
  omega

/-- Two LEDs have the same set of registers when both are LAN LEDs. -/
theorem brightnessOff_eq_iff {i j : Fin 8} (hne : j ≠ i) :
    brightnessOff j = brightnessOff i ↔ (1 ≤ j.val ∧ j.val ≤ 5) ∧ 1 ≤ i.val ∧ i.val ≤ 5 := by
  revert i j
  decide

/-- The registers of the colours are not those of the bits for software control. -/
theorem brightnessReg_lt (idx : ℕ) (c : Fin 3) :
    brightnessReg idx c < swOverrideReg ∧ brightnessReg idx c < swDisableReg := by
  have hc := c.isLt
  have hoff := brightnessOff_le idx
  rw [brightnessReg_eq, swOverrideReg, swDisableReg, regOff, regOff]
  omega

/-- Other registers are as before. -/
theorem writeb_of_ne {off off' : ℕ} (h : off' ≠ off) (val : UInt8) (regs : Regs) :
    writeb val off regs off' = regs off' := by
  rw [writeb, Function.update_of_ne h]

private theorem writeColor_of_ne {led : Led} {idx : ℕ}
    (h : brightnessOff idx ≠ brightnessOff led.reg) (regs : Regs) (c : Fin 3) :
    writeColor led regs (brightnessReg idx c) = regs (brightnessReg idx c) := by
  have hne : ∀ d : Fin 3, brightnessReg idx c ≠ brightnessReg led.reg d :=
    fun d heq => h (brightnessReg_eq_iff.mp heq).1
  simp only [writeColor, List.foldl_cons, List.foldl_nil]
  rw [writeb_of_ne (hne 2), writeb_of_ne (hne 1), writeb_of_ne (hne 0)]

private theorem writeColor_of_eq {led : Led} {idx : ℕ}
    (h : brightnessOff idx = brightnessOff led.reg) (regs : Regs) (c : Fin 3) :
    writeColor led regs (brightnessReg idx c) = UInt8.ofNat (led.component c) := by
  have hc : c = 0 ∨ c = 1 ∨ c = 2 := by
    revert c
    decide
  simp only [writeColor, List.foldl_cons, List.foldl_nil, writeb, Function.update_apply,
    brightnessReg_eq_iff, h, true_and]
  rcases hc with rfl | rfl | rfl
  · rfl
  · rfl
  · rfl

/-- Both states have the same colours in the registers. -/
def SameColors (regs regs' : Regs) : Prop :=
  ∀ idx (c : Fin 3), regs' (brightnessReg idx c) = regs (brightnessReg idx c)

private theorem sameColors_override (val : UInt8) (regs : Regs) :
    SameColors regs (writeb val swOverrideReg regs) :=
  fun idx c => writeb_of_ne (brightnessReg_lt idx c).1.ne val regs

private theorem sameColors_disable (val : UInt8) (regs : Regs) :
    SameColors regs (writeb val swDisableReg regs) :=
  fun idx c => writeb_of_ne (brightnessReg_lt idx c).2.ne val regs

private theorem sameColors_setDisable (reg brightness : ℕ) (regs : Regs) :
    SameColors regs (setDisable reg brightness regs) := by
  unfold setDisable
  simp only
  split
  · exact sameColors_disable _ regs
  · split
    · exact sameColors_disable _ regs
    · exact fun _ _ => rfl

private theorem sameColors_registerRegs (s : Leds) (reg : ℕ) :
    SameColors s.regs (registerRegs s reg).2.2 := by
  intro idx c
  unfold registerRegs
  split
  · split
    · exact (sameColors_override _ _ idx c).trans (sameColors_disable _ _ idx c)
    · exact sameColors_override _ _ idx c
  · rfl

/-! ### The invariant -/

/-- What the driver keeps of a LED: its number once it is registered, a colour of bytes,
and a brightness that is on or off. -/
structure WellFormed (s : Leds) : Prop where
  reg_eq : ∀ i, (s.leds i).reg = if (s.leds i).registered then i.val else 0
  intensity_lt : ∀ i c, (s.leds i).intensity c < 256
  brightness_le : ∀ i, (s.leds i).brightness ≤ 1

/-- A LED that is lit has its colour in its registers. -/
def ShowsColor (s : Leds) (i : Fin 8) : Prop :=
  (s.leds i).registered = true → (s.leds i).lastSet ≠ 0 →
    ∀ c, (s.leds i).intensity c = (s.regs (brightnessReg i c)).toNat

/-- The invariant of the driver. -/
def ShowsColors (s : Leds) : Prop := WellFormed s ∧ ∀ i, ShowsColor s i

/-- After the probe the registers show the colours. -/
theorem showsColors_probe (regs : Regs) : ShowsColors (probe regs) := by
  refine ⟨⟨fun i => rfl, fun i c => ?_, fun i => Nat.zero_le 1⟩, fun i h => ?_⟩
  · exact Nat.zero_lt_succ 255
  · cases h

/-- Other registers than those of the colours do not matter. -/
theorem showsColors_of_sameColors {s : Leds} (h : ShowsColors s) {regs : Regs}
    (hregs : SameColors s.regs regs) : ShowsColors { s with regs := regs } := by
  refine ⟨⟨h.1.reg_eq, h.1.intensity_lt, h.1.brightness_le⟩, fun i hregistered hlit c => ?_⟩
  exact (h.2 i hregistered hlit c).trans (congrArg UInt8.toNat (hregs i c).symm)

section Update

variable {s : Leds} {i : Fin 8} {led : Led}

/-- The LED that is updated. -/
theorem leds_update_self : (s.update i led).leds i = led := by
  simp only [Leds.update, Function.update_self]

/-- The other LEDs are as before. -/
theorem leds_update_of_ne {j : Fin 8} (hne : j ≠ i) : (s.update i led).leds j = s.leds j := by
  simp only [Leds.update, Function.update_of_ne hne]

private theorem wellFormed_update (h : WellFormed s)
    (hreg : led.reg = if led.registered then i.val else 0)
    (hintensity : ∀ c, led.intensity c < 256) (hbrightness : led.brightness ≤ 1) :
    WellFormed (s.update i led) := by
  have hcases : ∀ {p : Fin 8 → Led → Prop}, p i led → (∀ j, p j (s.leds j)) →
      ∀ j, p j ((s.update i led).leds j) := by
    intro p hi hall j
    rcases eq_or_ne j i with rfl | hne
    · rwa [leds_update_self]
    · rw [leds_update_of_ne hne]
      exact hall j
  exact
    { reg_eq := hcases (p := fun j led => led.reg = if led.registered then j.val else 0)
        hreg h.reg_eq
      intensity_lt := hcases (p := fun _ led => ∀ c, led.intensity c < 256)
        hintensity h.intensity_lt
      brightness_le := hcases (p := fun _ led => led.brightness ≤ 1)
        hbrightness h.brightness_le }

private theorem showsColor_update_of_ne {j : Fin 8} (hne : j ≠ i) :
    ShowsColor (s.update i led) j ↔ ShowsColor s j := by
  rw [ShowsColor, leds_update_of_ne hne]
  rfl

end Update

/-! ### Setting the brightness -/

private theorem reg_calcColorComponents (led : Led) (brightness : ℕ) :
    (calcColorComponents led brightness).reg = led.reg := rfl

private theorem intensity_calcColorComponents (led : Led) (brightness : ℕ) :
    (calcColorComponents led brightness).intensity = led.intensity := rfl

section SetColor

variable {s : Leds} {i j : Fin 8} {brightness : ℕ}

/-- The LED whose colour is set. -/
theorem leds_setColor_self :
    (setColor s i brightness).leds i = calcColorComponents (s.leds i) brightness := by
  simp only [setColor]
  split
  · rw [reflectColor, Function.update_self]
    simp
  · rw [Function.update_self]

/-- Another LED gets the intensities when both have the number of a LAN LED. -/
theorem leds_setColor_of_ne (hne : j ≠ i) :
    (setColor s i brightness).leds j =
      if (1 ≤ (s.leds i).reg ∧ (s.leds i).reg ≤ 5) ∧
          ¬((s.leds j).reg < 1 ∨ 5 < (s.leds j).reg ∨ (s.leds j).reg = (s.leds i).reg) then
        { s.leds j with intensity := (s.leds i).intensity }
      else s.leds j := by
  have hreg := reg_calcColorComponents (s.leds i) brightness
  by_cases hlan : 1 ≤ (s.leds i).reg ∧ (s.leds i).reg ≤ 5
  · have hleds : (setColor s i brightness).leds =
        reflectColor (calcColorComponents (s.leds i) brightness)
          (Function.update s.leds i (calcColorComponents (s.leds i) brightness)) :=
      if_pos (by rwa [hreg])
    rw [hleds, reflectColor, Function.update_of_ne hne, hreg]
    split
    · next hskip => rw [if_neg fun h => h.2 hskip]
    · next hskip => rw [if_pos ⟨hlan, hskip⟩, intensity_calcColorComponents]
  · have hleds : (setColor s i brightness).leds =
        Function.update s.leds i (calcColorComponents (s.leds i) brightness) :=
      if_neg (by rwa [hreg])
    rw [hleds, Function.update_of_ne hne, if_neg fun h => hlan h.1]

/-- The LEDs that get the intensities are the registered ones with the same registers. -/
theorem leds_setColor (h : WellFormed s) (hi : (s.leds i).registered = true) (hne : j ≠ i) :
    (setColor s i brightness).leds j =
      if (s.leds j).registered ∧ brightnessOff j = brightnessOff i then
        { s.leds j with intensity := (s.leds i).intensity }
      else s.leds j := by
  have hregi : (s.leds i).reg = i.val := by rw [h.reg_eq, if_pos hi]
  have hregj := h.reg_eq j
  have hval : j.val ≠ i.val := fun heq => hne (Fin.ext heq)
  rw [leds_setColor_of_ne hne]
  refine if_congr ?_ rfl rfl
  rw [brightnessOff_eq_iff hne, hregi]
  cases hj : (s.leds j).registered with
  | true =>
    rw [hj, if_pos rfl] at hregj
    rw [hregj]
    simp only [true_and]
    omega
  | false =>
    rw [hj, if_neg Bool.false_ne_true] at hregj
    rw [hregj]
    simp

private theorem wellFormed_setColor (h : WellFormed s) (hi : (s.leds i).registered = true) :
    WellFormed (setColor s i brightness) := by
  have hcases : ∀ {p : Fin 8 → Led → Prop}, p i (calcColorComponents (s.leds i) brightness) →
      (∀ j, p j { s.leds j with intensity := (s.leds i).intensity }) → (∀ j, p j (s.leds j)) →
      ∀ j, p j ((setColor s i brightness).leds j) := by
    intro p hself hintensity hall j
    rcases eq_or_ne j i with rfl | hne
    · rwa [leds_setColor_self]
    · rw [leds_setColor h hi hne]
      split
      · exact hintensity j
      · exact hall j
  exact
    { reg_eq := hcases (p := fun j led => led.reg = if led.registered then j.val else 0)
        (h.reg_eq i) h.reg_eq h.reg_eq
      intensity_lt := hcases (p := fun _ led => ∀ c, led.intensity c < 256)
        (h.intensity_lt i) (fun _ => h.intensity_lt i) h.intensity_lt
      brightness_le := hcases (p := fun _ led => led.brightness ≤ 1)
        (h.brightness_le i) h.brightness_le h.brightness_le }

/-- The registers that the LED shares have its own intensities. -/
theorem regs_setColor (h : WellFormed s) (hi : (s.leds i).registered = true)
    (hoff : brightnessOff j = brightnessOff i) (c : Fin 3) :
    ((setColor s i 1).regs (brightnessReg j c)).toNat = (s.leds i).intensity c := by
  have hregi : (s.leds i).reg = i.val := by rw [h.reg_eq, if_pos hi]
  have hlt := h.intensity_lt i c
  have hcomponent : (calcColorComponents (s.leds i) 1).component c = (s.leds i).intensity c := by
    simp only [calcColorComponents, maxBrightness, Nat.one_mul, Nat.div_one]
  have hreg : (calcColorComponents (s.leds i) 1).reg = i.val := hregi
  have hregs : (setColor s i 1).regs = writeColor (calcColorComponents (s.leds i) 1) s.regs := rfl
  rw [hregs, writeColor_of_eq (by rw [hoff, hreg]), hcomponent, UInt8.toNat_ofNat',
    Nat.mod_eq_of_lt hlt]

private theorem regs_setColor_of_ne (h : WellFormed s) (hi : (s.leds i).registered = true)
    (hoff : brightnessOff j ≠ brightnessOff i) (c : Fin 3) :
    (setColor s i brightness).regs (brightnessReg j c) = s.regs (brightnessReg j c) := by
  have hregi : (s.leds i).reg = i.val := by rw [h.reg_eq, if_pos hi]
  have hreg : (calcColorComponents (s.leds i) brightness).reg = i.val := hregi
  have hregs : (setColor s i brightness).regs =
      writeColor (calcColorComponents (s.leds i) brightness) s.regs := rfl
  rw [hregs, writeColor_of_ne (by rwa [hreg])]

/-- After the new colour is written every LED shows its colour that did so before, and the
one that is set does now. -/
theorem showsColors_setColor (h : WellFormed s) (hi : (s.leds i).registered = true)
    (hshows : ∀ j, j ≠ i → ShowsColor s j) : ShowsColors (setColor s i 1) := by
  refine ⟨wellFormed_setColor h hi, fun j => ?_⟩
  rcases eq_or_ne j i with rfl | hne
  · rw [ShowsColor, leds_setColor_self]
    intro _ _ c
    exact (regs_setColor h hi rfl c).symm
  · rw [ShowsColor, leds_setColor h hi hne]
    split
    · next hshared =>
      intro _ _ c
      exact (regs_setColor h hi hshared.2 c).symm
    · next hown =>
      intro hj hlit c
      have hoff : brightnessOff j ≠ brightnessOff i := fun hoff => hown ⟨hj, hoff⟩
      rw [regs_setColor_of_ne h hi hoff]
      exact hshows j hne hj hlit c

end SetColor

/-- `turris1x_led_brightness_set` gives the invariant back for the LED that it sets. -/
theorem showsColors_brightnessSet {s : Leds} {i : Fin 8} {brightness : ℕ} (h : WellFormed s)
    (hi : (s.leds i).registered = true) (hshows : ∀ j, j ≠ i → ShowsColor s j)
    (hlast : (s.leds i).lastSet = brightness) (hle : brightness ≤ 1) :
    ShowsColors (brightnessSet s i brightness) := by
  rw [brightnessSet]
  refine showsColors_of_sameColors ?_ (sameColors_setDisable _ _ _)
  split
  · next hne =>
    obtain rfl : brightness = 1 := by omega
    exact showsColors_setColor h hi hshows
  · next hzero =>
    -- A LED that is off need not show its colour.
    refine ⟨h, fun j => ?_⟩
    rcases eq_or_ne j i with rfl | hne
    · intro _ hlit
      rw [hlast] at hlit
      exact absurd hlit hzero
    · exact hshows j hne

/-- The same for a LED whose brightness is set and whose intensities may just have changed. -/
theorem showsColors_ledSetBrightness {s : Leds} {i : Fin 8} {brightness : ℕ} (h : WellFormed s)
    (hi : (s.leds i).registered = true) (hshows : ∀ j, j ≠ i → ShowsColor s j)
    (hle : brightness ≤ 1) : ShowsColors (ledSetBrightness s i brightness) := by
  refine showsColors_brightnessSet ?_ ?_ ?_ ?_ hle
  · exact wellFormed_update h (h.reg_eq i) (h.intensity_lt i) hle
  · rwa [leds_update_self]
  · exact fun j hne => (showsColor_update_of_ne hne).mpr (hshows j hne)
  · rw [leds_update_self]

/-- A LED that is registered takes its colour from the registers. -/
theorem showsColors_register {s t : Leds} {node : Node} (h : ShowsColors s)
    (hregister : register s node = .ok t) : ShowsColors t := by
  rw [register] at hregister
  cases hreg : node.reg with
  | none =>
    rw [hreg] at hregister
    cases hregister
  | some reg =>
    rw [hreg] at hregister
    simp only at hregister
    split at hregister
    · next hlt =>
      split at hregister
      · cases hregister
      split at hregister
      · cases hregister
      · have hregs : ShowsColors { s with regs := (registerRegs s reg).2.2 } :=
          showsColors_of_sameColors h (sameColors_registerRegs s reg)
        obtain rfl := Except.ok.inj hregister
        refine ⟨wellFormed_update hregs.1 rfl (fun c => UInt8.toNat_lt _) ?_, fun j => ?_⟩
        · simp only
          split
          · exact le_rfl
          · exact h.1.brightness_le _
        · rcases eq_or_ne j ⟨reg, hlt⟩ with rfl | hne
          · intro _ _ c
            rw [leds_update_self]
            exact congrArg UInt8.toNat (sameColors_registerRegs s reg reg c).symm
          · exact (showsColor_update_of_ne hne).mpr (hregs.2 j)
    · cases hregister

private theorem showsColors_updateBrightness {s : Leds} (h : ShowsColors s) (i : Fin 8) :
    ShowsColors (s.update i { s.leds i with brightness := brightnessGet s i }) := by
  have hle : brightnessGet s i ≤ 1 := by
    unfold brightnessGet
    split
    · exact le_rfl
    · split
      · exact le_rfl
      · exact Nat.zero_le 1
  refine ⟨wellFormed_update h.1 (h.1.reg_eq i) (h.1.intensity_lt i) hle, fun j => ?_⟩
  rcases eq_or_ne j i with rfl | hne
  · rw [ShowsColor, leds_update_self]
    exact h.2 j
  · exact (showsColor_update_of_ne hne).mpr (h.2 j)

/-- Every operation keeps the invariant. -/
theorem showsColors_step {s : Leds} (h : ShowsColors s) (op : Operation) :
    ShowsColors (step s op) := by
  cases op with
  | register node =>
    rw [step]
    split
    · next hregister => exact showsColors_register h hregister
    · exact h
  | brightness i on =>
    rw [step]
    split
    · next hi =>
      refine showsColors_ledSetBrightness h.1 hi (fun j _ => h.2 j) ?_
      split <;> omega
    · exact h
  | color i components =>
    rw [step]
    split
    · next hi =>
      refine showsColors_ledSetBrightness ?_ ?_ ?_ (h.1.brightness_le i)
      · refine wellFormed_update h.1 (h.1.reg_eq i) (fun c => ?_) (h.1.brightness_le i)
        exact (components c).toNat_lt
      · rwa [leds_update_self]
      · exact fun j hne => (showsColor_update_of_ne hne).mpr (h.2 j)
    · exact h
  | activate i =>
    rw [step]
    split
    · exact showsColors_of_sameColors h (sameColors_override _ _)
    · exact h
  | deactivate i =>
    rw [step]
    split
    · exact showsColors_of_sameColors h (sameColors_override _ _)
    · exact h
  | updateBrightness i =>
    rw [step]
    split
    · exact showsColors_updateBrightness h i
    · exact h

/-- A registered LED whose brightness was last set to something else than zero. -/
def Lit (s : Leds) (i : Fin 8) : Prop :=
  (s.leds i).registered = true ∧ (s.leds i).lastSet ≠ 0

instance (s : Leds) (i : Fin 8) : Decidable (Lit s i) := inferInstanceAs (Decidable (_ ∧ _))

/-- The intensities of every lit LED are in its registers, and all lit LAN LEDs have the
same ones. -/
def LitShowColor (s : Leds) : Prop :=
  (∀ i, Lit s i → ∀ c : Fin 3,
    (s.leds i).intensity c = (s.regs (brightnessReg (s.leds i).reg c)).toNat) ∧
  ∀ i j : Fin 8, 1 ≤ i.val ∧ i.val ≤ 5 → 1 ≤ j.val ∧ j.val ≤ 5 → Lit s i → Lit s j →
    (s.leds i).intensity = (s.leds j).intensity

private theorem litShowColor_of_showsColors {s : Leds} (h : ShowsColors s) : LitShowColor s := by
  refine ⟨fun i hlit c => ?_, fun i j hi hj hilit hjlit => ?_⟩
  · rw [h.1.reg_eq i, if_pos hlit.1]
    exact h.2 i hlit.1 hlit.2 c
  · have hoff : brightnessOff i = brightnessOff j := by
      rcases eq_or_ne i j with rfl | hne
      · rfl
      · exact (brightnessOff_eq_iff hne).mpr ⟨hi, hj⟩
    funext c
    rw [h.2 i hilit.1 hilit.2 c, h.2 j hjlit.1 hjlit.2 c, brightnessReg_eq_iff.mpr ⟨hoff, rfl⟩]

/-- **The colours shown are the colours set.** Whatever the CPLD has in its registers at first
and whatever is done, a LED that is lit has its intensities in its registers, and so all
LAN LEDs that are lit have one colour. -/
theorem lit_shows_color (regs : Regs) (ops : List Operation) :
    LitShowColor (ops.foldl step (probe regs)) :=
  litShowColor_of_showsColors (List.foldlRecOn ops step (showsColors_probe regs)
    fun _ h op _ => showsColors_step h op)

/-- A LAN LED that is lit takes the colour of the other one when that is lit too. -/
example :
    let s := [.register ⟨some 1, true⟩, .register ⟨some 4, true⟩, .brightness 1 true,
      .brightness 4 false, .color 4 fun _ => 9, .brightness 4 true].foldl step (probe fun _ => 7)
    Lit s 1 ∧ Lit s 4 ∧ (s.leds 1).intensity 0 = 9 := by decide

end TurrisBuild.Turris1xLeds
