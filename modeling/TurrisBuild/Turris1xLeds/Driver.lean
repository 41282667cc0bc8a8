import Mathlib.Algebra.Ring.Nat
import Mathlib.Data.Fin.Basic
import Mathlib.Logic.Function.Basic

/-!
# The LED driver of Turris 1.x

The state and the entry points of `leds-turris-1x.c` that set colours. Each LED has three
registers for its colour in the CPLD, but the five LAN LEDs have one set of them together,
and the driver keeps a copy of the colour for every LED.
-/

namespace TurrisBuild.Turris1xLeds

/-! ### Registers -/

/-- `TURRIS1X_LED_REG_OFF` -/
def regOff (reg : ℕ) : ℕ := reg - 0x13

/-- `TURRIS1X_LED_BRIGHTNESS_OFF` -/
def brightnessOff (idx : ℕ) : ℕ :=
  if idx % 8 = 0 then 0 else if idx % 8 ≤ 5 then 1 else idx % 8 - 4

/-- `TURRIS1X_LED_BRIGHTNESS_REG` -/
def brightnessReg (idx color : ℕ) : ℕ := regOff (0x13 + 3 * brightnessOff idx + color % 4)

/-- `TURRIS1X_LED_SW_OVERRIDE_REG` -/
def swOverrideReg : ℕ := regOff 0x22

/-- `TURRIS1X_LED_SW_DISABLE_REG` -/
def swDisableReg : ℕ := regOff 0x23

/-- `TURRIS1X_LED_GLOBAL_BRIGHTNESS_REG` -/
def globalBrightnessReg (lvl : ℕ) : ℕ := regOff (0x28 + lvl % 8)

/-- The bytes of the CPLD by their offset. -/
abbrev Regs := ℕ → UInt8

def writeb (val : UInt8) (off : ℕ) (regs : Regs) : Regs := Function.update regs off val

/-- `BIT` -/
def bit (n : ℕ) : UInt8 := UInt8.ofNat (1 <<< n)

/-! ### LEDs -/

/-- `struct turris1x_led` with the fields of its class device that matter for colours. The
argument of the last call of `turris1x_led_brightness_set` is kept beside them. -/
structure Led where
  intensity : Fin 3 → ℕ
  component : Fin 3 → ℕ
  reg : ℕ
  registered : Bool
  hwTrigger : Bool
  brightness : ℕ
  lastSet : ℕ

/-- `struct turris1x_leds` with the CPLD, and the two values that `turris1x_leds_probe` has
read before it registers the LEDs. -/
structure Leds where
  regs : Regs
  leds : Fin 8 → Led
  valSwOverride : UInt8
  valSwDisable : UInt8

/-- A LED as `devm_kzalloc` leaves it. -/
def zeroLed : Led where
  intensity := fun _ => 0
  component := fun _ => 0
  reg := 0
  registered := false
  hwTrigger := false
  brightness := 0
  lastSet := 0

/-- `turris1x_leds_probe` up to the registration of the LEDs. -/
def probe (regs : Regs) : Leds where
  regs := regs
  leds := fun _ => zeroLed
  valSwOverride := regs swOverrideReg
  valSwDisable := regs swDisableReg

def Leds.update (s : Leds) (i : Fin 8) (led : Led) : Leds :=
  { s with leds := Function.update s.leds i led }

/-- `turris1x_hwtrig_activate` -/
def hwtrigActivate (s : Leds) (i : Fin 8) : Leds :=
  { s with regs := writeb (s.regs swOverrideReg &&& ~~~bit (s.leds i).reg) swOverrideReg s.regs }

/-- `turris1x_hwtrig_deactivate` -/
def hwtrigDeactivate (s : Leds) (i : Fin 8) : Leds :=
  { s with regs := writeb (s.regs swOverrideReg ||| bit (s.leds i).reg) swOverrideReg s.regs }

/-- `turris1x_led_brightness_get` -/
def brightnessGet (s : Leds) (i : Fin 8) : ℕ :=
  if s.regs swOverrideReg &&& bit (s.leds i).reg = 0 then 1
  else if s.regs swDisableReg &&& bit (s.leds i).reg = 0 then 1
  else 0

/-- `cdev->max_brightness` -/
def maxBrightness : ℕ := 1

/-- `led_mc_calc_color_components` of the multicolor framework -/
def calcColorComponents (led : Led) (brightness : ℕ) : Led :=
  { led with component := fun c => brightness * led.intensity c / maxBrightness }

/-- The colour of a LED goes to its registers. -/
def writeColor (led : Led) (regs : Regs) : Regs :=
  [0, 1, 2].foldl (fun regs (c : Fin 3) =>
    writeb (UInt8.ofNat (led.component c)) (brightnessReg led.reg c) regs) regs

/-- The colour of a LAN LED goes to the copies of the other ones. -/
def reflectColor (led : Led) (leds : Fin 8 → Led) : Fin 8 → Led := fun j =>
  if (leds j).reg < 1 ∨ 5 < (leds j).reg ∨ (leds j).reg = led.reg then leds j
  else { leds j with intensity := led.intensity }

/-- `turris1x_led_brightness_set` when the LED is enabled: the new colour -/
def setColor (s : Leds) (i : Fin 8) (brightness : ℕ) : Leds :=
  let led := calcColorComponents (s.leds i) brightness
  let leds := Function.update s.leds i led
  { s with
    regs := writeColor led s.regs
    leds := if 1 ≤ led.reg ∧ led.reg ≤ 5 then reflectColor led leds else leds }

/-- `turris1x_led_brightness_set`: the bit for software control -/
def setDisable (reg brightness : ℕ) (regs : Regs) : Regs :=
  let val := regs swDisableReg
  if brightness ≠ 0 ∧ val &&& bit reg ≠ 0 then writeb (val &&& ~~~bit reg) swDisableReg regs
  else if brightness = 0 ∧ val &&& bit reg = 0 then writeb (val ||| bit reg) swDisableReg regs
  else regs

/-- `turris1x_led_brightness_set` -/
def brightnessSet (s : Leds) (i : Fin 8) (brightness : ℕ) : Leds :=
  let t := if brightness ≠ 0 then setColor s i brightness else s
  { t with regs := setDisable (s.leds i).reg brightness t.regs }

/-- `led_set_brightness` of the LED class -/
def ledSetBrightness (s : Leds) (i : Fin 8) (brightness : ℕ) : Leds :=
  brightnessSet
    (s.update i { s.leds i with brightness := brightness, lastSet := brightness }) i brightness

/-- A node of the device tree: its property `reg`, and whether the property `color` says
`LED_COLOR_ID_RGB`. -/
structure Node where
  reg : Option ℕ
  rgb : Bool

/-- The reasons for `-EINVAL`. -/
inductive NodeError
  | reg
  | color
  | duplicate

/-- What `turris1x_led_register` does to the registers: LED 6 has no hardware trigger. -/
def registerRegs (s : Leds) (reg : ℕ) : UInt8 × UInt8 × Regs :=
  if reg = 6 ∧ s.valSwOverride &&& bit 6 = 0 then
    let valSwOverride := s.valSwOverride ||| bit 6
    if s.valSwDisable &&& bit 6 = 0 then
      let valSwDisable := s.valSwDisable ||| bit 6
      (valSwOverride, valSwDisable, writeb valSwOverride swOverrideReg
        (writeb valSwDisable swDisableReg s.regs))
    else (valSwOverride, s.valSwDisable, writeb valSwOverride swOverrideReg s.regs)
  else (s.valSwOverride, s.valSwDisable, s.regs)

/-- `turris1x_led_register` -/
def register (s : Leds) (node : Node) : Except NodeError Leds :=
  match node.reg with
  | none => .error .reg
  | some reg =>
    if h : reg < 8 then
      if node.rgb = false then .error .color
      else if (s.leds ⟨reg, h⟩).registered then .error .duplicate
      else
        let (valSwOverride, valSwDisable, regs) := registerRegs s reg
        .ok ({ s with regs := regs }.update ⟨reg, h⟩
          { s.leds ⟨reg, h⟩ with
            registered := true
            reg := reg
            intensity := fun c => (s.regs (brightnessReg reg c)).toNat
            hwTrigger := reg ≠ 6
            brightness := if valSwOverride &&& bit reg = 0 ∨ valSwDisable &&& bit reg = 0 then 1
              else (s.leds ⟨reg, h⟩).brightness })
    else .error .reg

/-! ### Operations -/

/-- An operation of the driver, most of them on a LED. -/
inductive Operation
  | register (node : Node)
  | brightness (i : Fin 8) (on : Bool)
  | color (i : Fin 8) (components : Fin 3 → UInt8)
  | activate (i : Fin 8)
  | deactivate (i : Fin 8)
  | updateBrightness (i : Fin 8)

/-- Only a registered LED can be used, and a node that is refused registers nothing. The
multicolor framework sets the brightness again after it has changed the intensities, and the LED
class may read the brightness back. -/
def step (s : Leds) : Operation → Leds
  | .register node =>
    match register s node with
    | .ok t => t
    | .error _ => s
  | .brightness i on =>
    if (s.leds i).registered then ledSetBrightness s i (if on then 1 else 0) else s
  | .color i components =>
    if (s.leds i).registered then
      ledSetBrightness
        (s.update i { s.leds i with intensity := fun c => (components c).toNat }) i
        (s.leds i).brightness
    else s
  | .activate i =>
    if (s.leds i).registered ∧ (s.leds i).hwTrigger then hwtrigActivate s i else s
  | .deactivate i =>
    if (s.leds i).registered ∧ (s.leds i).hwTrigger then hwtrigDeactivate s i else s
  | .updateBrightness i =>
    if (s.leds i).registered then
      s.update i { s.leds i with brightness := brightnessGet s i }
    else s

/-! ### Numerals -/

/-- There are LEDs, so they have numerals. -/
theorem neZero_leds : NeZero 8 := ⟨by decide⟩

/-- There are components of colours. -/
theorem neZero_components : NeZero 3 := ⟨by decide⟩

end TurrisBuild.Turris1xLeds
