import Mathlib.Data.List.FinRange
import Mathlib.Data.List.MinMax
import Mathlib.Tactic.Common
import TurrisBuild.Turris1xLeds.BrightnessValues
import TurrisBuild.Turris1xLeds.Colors

/-!
# The attributes of the LED controller

Besides its LEDs the driver has three attributes for the global brightness: the eight values
between which a button cycles, the level that is on, and the brightness itself, which can only be
one of the eight values. They share registers with each other, but none with the LEDs.
-/

namespace TurrisBuild.Turris1xLeds

open Scanf

attribute [local instance] neZero_leds

/-! ### The attributes -/

/-- `TURRIS1X_LED_GLOBAL_LEVEL_REG` -/
def globalLevelReg : ℕ := regOff 0x20

/-- A buffer up to its first zero byte. -/
def cString (buf : List Char) : List Char := buf.takeWhile (· != Char.ofNat 0)

/-- A number on a line of its own, `"%u\n"` -/
def line (n : ℕ) : List Char := Nat.toDigits 10 n ++ ['\n']

/-- `brightness_show`. The register that it reads is that of the level that is on. -/
def brightnessShow (regs : Regs) : List Char :=
  line (regs (globalBrightnessReg (regs globalLevelReg &&& 7).toNat)).toNat

/-- The difference between a level and a brightness. -/
def levelError (regs : Regs) (brightness level : ℕ) : ℕ :=
  ((regs (globalBrightnessReg level)).toNat - brightness : ℤ).natAbs

/-- One round of the loop in `brightness_store`, with `best_error` and `best_level`. -/
def closer (regs : Regs) (brightness : ℕ) (best : ℕ × ℕ) (level : ℕ) : ℕ × ℕ :=
  if levelError regs brightness level < best.1 then (levelError regs brightness level, level)
  else best

/-- The loop in `brightness_store`, which begins with `INT_MAX`. -/
def bestLevel (regs : Regs) (brightness : ℕ) : ℕ :=
  ((List.range 8).foldl (closer regs brightness) (2147483647, 0)).2

/-- `brightness_store`: the number of characters, or nothing for `-EINVAL`, and the registers -/
def brightnessStore (regs : Regs) (buf : List Char) : Option ℕ × Regs :=
  match kstrtoul 32 (cString buf) with
  | none => (none, regs)
  | some brightness =>
    if 255 < brightness then (none, regs)
    else (some buf.length,
      writeb (UInt8.ofNat (bestLevel regs brightness)) globalLevelReg regs)

/-- `brightness_level_show` -/
def brightnessLevelShow (regs : Regs) : List Char := line (regs globalLevelReg &&& 7).toNat

/-- `brightness_level_store` -/
def brightnessLevelStore (regs : Regs) (buf : List Char) : Option ℕ × Regs :=
  match kstrtoul 32 (cString buf) with
  | none => (none, regs)
  | some level =>
    if 7 < level then (none, regs)
    else (some buf.length, writeb (UInt8.ofNat level) globalLevelReg regs)

inductive Attribute
  | brightness
  | brightnessLevel
  | brightnessValues

def Attribute.show : Attribute → Regs → List Char
  | brightness => brightnessShow
  | brightnessLevel => brightnessLevelShow
  | brightnessValues => brightnessValuesShow

def Attribute.store : Attribute → Regs → List Char → Option ℕ × Regs
  | brightness => brightnessStore
  | brightnessLevel => brightnessLevelStore
  | brightnessValues => brightnessValuesStore

/-- What is done with the driver: an operation of the LEDs, or something is written to an
attribute. The firmware sets the level when its button is pressed. -/
inductive Access
  | led (op : Operation)
  | write (attr : Attribute) (buf : List Char)
  | button (val : UInt8)

def access (s : Leds) : Access → Leds
  | .led op => step s op
  | .write attr buf => { s with regs := (attr.store s.regs buf).2 }
  | .button val => { s with regs := writeb val globalLevelReg s.regs }

/-! ### What the attributes are about -/

/-- Eight brightness values, one of which is on. -/
structure Controller where
  values : Fin 8 → UInt8
  level : Fin 8

/-- The controller that the registers stand for. -/
def controller (regs : Regs) : Controller where
  values := fun i => regs (globalBrightnessReg i)
  level := Fin.ofNat 8 (regs globalLevelReg).toNat

namespace Controller

variable (c : Controller)

/-- The brightness that is on. -/
def brightness : ℕ := (c.values c.level).toNat

def error (brightness : ℕ) (level : Fin 8) : ℕ := ((c.values level).toNat - brightness : ℤ).natAbs

/-- The first of the levels that are nearest to a brightness. -/
def nearest (brightness : ℕ) : Fin 8 :=
  ((List.finRange 8).argmin (c.error brightness)).getD 0

/-- A text that is written to an attribute. -/
def write (attr : Attribute) (buf : List Char) : Controller :=
  match attr with
  | .brightness =>
    match kstrtoul 32 (cString buf) with
    | none => c
    | some brightness => if 255 < brightness then c else { c with level := c.nearest brightness }
  | .brightnessLevel =>
    match kstrtoul 32 (cString buf) with
    | none => c
    | some level => if h : level < 8 then { c with level := ⟨level, h⟩ } else c
  | .brightnessValues =>
    match acceptedNumbers buf with
    | none => c
    | some numbers => { c with values := fun i => UInt8.ofNat (numbers.getD i 0) }

/-- The text of an attribute. -/
def print : Attribute → List Char
  | .brightness => line c.brightness
  | .brightnessLevel => line c.level
  | .brightnessValues => printNumbers (List.ofFn fun i => (c.values i).toNat) ++ ['\n']

end Controller

/-! ### The LEDs do not see the controller -/

/-- The registers of the controller that can be written. -/
def ControllerReg (off : ℕ) : Prop :=
  off = globalLevelReg ∨ globalBrightnessReg 0 ≤ off ∧ off ≤ globalBrightnessReg 7

instance (off : ℕ) : Decidable (ControllerReg off) := inferInstanceAs (Decidable (_ ∨ _ ∧ _))

/-- Registers with those of the controller taken from elsewhere. -/
def overlay (upper regs : Regs) : Regs :=
  fun off => if ControllerReg off then upper off else regs off

def Leds.overlay (upper : Regs) (s : Leds) : Leds :=
  { s with regs := Turris1xLeds.overlay upper s.regs }

private theorem not_controllerReg_brightnessReg (idx : ℕ) (color : Fin 3) :
    ¬ControllerReg (brightnessReg idx color) := by
  have hlt := brightnessReg_lt idx color
  simp only [swOverrideReg, swDisableReg, regOff] at hlt
  have hoff := brightnessOff_le idx
  have hcolor := color.isLt
  rw [brightnessReg_eq] at hlt ⊢
  simp only [ControllerReg, globalLevelReg, globalBrightnessReg, regOff]
  omega

private theorem not_controllerReg_swOverrideReg : ¬ControllerReg swOverrideReg := by decide

private theorem not_controllerReg_swDisableReg : ¬ControllerReg swDisableReg := by decide

section Overlay

variable (upper regs : Regs) {off : ℕ}

private theorem overlay_apply (h : ¬ControllerReg off) :
    overlay upper regs off = regs off := if_neg h

private theorem overlay_apply_of (h : ControllerReg off) :
    overlay upper regs off = upper off := if_pos h

private theorem overlay_writeb (h : ¬ControllerReg off) (val : UInt8) :
    overlay upper (writeb val off regs) = writeb val off (overlay upper regs) := by
  funext off'
  rcases eq_or_ne off' off with rfl | hne
  · rw [overlay_apply upper _ h, writeb, writeb, Function.update_self, Function.update_self]
  · rw [writeb_of_ne hne]
    simp only [overlay, writeb_of_ne hne]

/-- A register of the controller that is written is one of those taken from elsewhere. -/
theorem overlay_overlay (upper' : Regs) :
    overlay upper (overlay upper' regs) = overlay upper regs := by
  funext off
  simp only [overlay]
  split <;> rfl

private theorem overlay_self : overlay regs regs = regs := by
  funext off
  exact ite_self _

private theorem Leds.overlay_overlay (s : Leds) (upper' : Regs) :
    (s.overlay upper').overlay upper = s.overlay upper := by
  simp only [overlay, Turris1xLeds.overlay_overlay]

private theorem Leds.overlay_regs (s : Leds) :
    s.overlay (s.overlay upper).regs = s.overlay upper := by
  simp only [overlay, mk.injEq, and_true]
  funext off
  simp only [Turris1xLeds.overlay]
  split <;> rfl

private theorem overlay_writeColor (led : Led) :
    overlay upper (writeColor led regs) = writeColor led (overlay upper regs) := by
  simp only [writeColor, List.foldl_cons, List.foldl_nil]
  rw [overlay_writeb _ _ (not_controllerReg_brightnessReg _ 2),
    overlay_writeb _ _ (not_controllerReg_brightnessReg _ 1),
    overlay_writeb _ _ (not_controllerReg_brightnessReg _ 0)]

private theorem overlay_setDisable (reg brightness : ℕ) :
    overlay upper (setDisable reg brightness regs) =
      setDisable reg brightness (overlay upper regs) := by
  have hval : overlay upper regs swDisableReg = regs swDisableReg :=
    overlay_apply upper regs not_controllerReg_swDisableReg
  unfold setDisable
  simp only [hval]
  split
  · exact overlay_writeb upper regs not_controllerReg_swDisableReg _
  · split
    · exact overlay_writeb upper regs not_controllerReg_swDisableReg _
    · rfl

end Overlay

section Step

variable (upper : Regs) (s : Leds) (i : Fin 8)

private theorem overlay_update (led : Led) :
    (s.overlay upper).update i led = (s.update i led).overlay upper := rfl

private theorem setColor_overlay (brightness : ℕ) :
    setColor (s.overlay upper) i brightness = (setColor s i brightness).overlay upper := by
  have hregs := overlay_writeColor upper s.regs (calcColorComponents (s.leds i) brightness)
  simp only [setColor, Leds.overlay, hregs]
  rfl

private theorem brightnessSet_overlay (brightness : ℕ) :
    brightnessSet (s.overlay upper) i brightness =
      (brightnessSet s i brightness).overlay upper := by
  rw [brightnessSet, brightnessSet]
  have hcolor : (if brightness ≠ 0 then setColor (s.overlay upper) i brightness
      else s.overlay upper) =
        (if brightness ≠ 0 then setColor s i brightness else s).overlay upper := by
    split
    · exact setColor_overlay upper s i brightness
    · rfl
  rw [hcolor]
  simp only [Leds.overlay, overlay_setDisable]

private theorem ledSetBrightness_overlay (brightness : ℕ) :
    ledSetBrightness (s.overlay upper) i brightness =
      (ledSetBrightness s i brightness).overlay upper := by
  rw [ledSetBrightness, overlay_update, brightnessSet_overlay]
  rfl

private theorem writeOverride_overlay (val : UInt8) :
    { s.overlay upper with regs := writeb val swOverrideReg (s.overlay upper).regs } =
      { s with regs := writeb val swOverrideReg s.regs }.overlay upper := by
  simp only [Leds.overlay, overlay_writeb upper s.regs not_controllerReg_swOverrideReg]

private theorem regs_overlay_swOverrideReg :
    (s.overlay upper).regs swOverrideReg = s.regs swOverrideReg :=
  overlay_apply upper s.regs not_controllerReg_swOverrideReg

private theorem regs_overlay_swDisableReg :
    (s.overlay upper).regs swDisableReg = s.regs swDisableReg :=
  overlay_apply upper s.regs not_controllerReg_swDisableReg

/-- Which registers are written does not depend on their contents. -/
private theorem registerRegs_spec (reg : ℕ) : ∃ valSwOverride valSwDisable, ∃ write : Regs → Regs,
    (∀ regs, registerRegs { s with regs := regs } reg = (valSwOverride, valSwDisable, write regs)) ∧
      ∀ regs, overlay upper (write regs) = write (overlay upper regs) := by
  by_cases hsix : reg = 6 ∧ s.valSwOverride &&& bit 6 = 0
  · by_cases hdisable : s.valSwDisable &&& bit 6 = 0
    · refine ⟨s.valSwOverride ||| bit 6, s.valSwDisable ||| bit 6,
        fun regs => writeb (s.valSwOverride ||| bit 6) swOverrideReg
          (writeb (s.valSwDisable ||| bit 6) swDisableReg regs), fun regs => ?_, fun regs => ?_⟩
      · rw [registerRegs, if_pos hsix]
        exact if_pos hdisable
      · rw [overlay_writeb upper _ not_controllerReg_swOverrideReg,
          overlay_writeb upper _ not_controllerReg_swDisableReg]
    · refine ⟨s.valSwOverride ||| bit 6, s.valSwDisable,
        writeb (s.valSwOverride ||| bit 6) swOverrideReg, fun regs => ?_, fun regs => ?_⟩
      · rw [registerRegs, if_pos hsix]
        exact if_neg hdisable
      · exact overlay_writeb upper regs not_controllerReg_swOverrideReg _
  · exact ⟨_, _, id, fun regs => if_neg hsix, fun regs => rfl⟩

private theorem registerRegs_overlay (reg : ℕ) :
    registerRegs (s.overlay upper) reg =
      ((registerRegs s reg).1, (registerRegs s reg).2.1,
        overlay upper (registerRegs s reg).2.2) := by
  obtain ⟨valSwOverride, valSwDisable, write, heq, hwrite⟩ := registerRegs_spec upper s reg
  have hself : registerRegs s reg = (valSwOverride, valSwDisable, write s.regs) := heq s.regs
  rw [hself, hwrite]
  exact heq (overlay upper s.regs)

private theorem register_overlay (node : Node) :
    register (s.overlay upper) node = (register s node).map (Leds.overlay upper) := by
  unfold register
  cases node.reg with
  | none => rfl
  | some reg =>
    simp only [registerRegs_overlay]
    split
    · split
      · rfl
      · have hleds : (s.overlay upper).leds = s.leds := rfl
        rw [hleds]
        split
        · rfl
        · have hregs : ∀ c : Fin 3, (s.overlay upper).regs (brightnessReg reg c) =
              s.regs (brightnessReg reg c) :=
            fun c => overlay_apply upper s.regs (not_controllerReg_brightnessReg reg c)
          simp only [hregs]
          rfl
    · rfl

/-- An operation of the LEDs neither reads nor writes registers of the controller. -/
theorem step_overlay (op : Operation) : step (s.overlay upper) op = (step s op).overlay upper := by
  have hleds : (s.overlay upper).leds = s.leds := rfl
  cases op with
  | register node =>
    simp only [step, register_overlay]
    cases register s node with
    | error _ => rfl
    | ok _ => rfl
  | brightness i on =>
    simp only [step, hleds]
    split
    · exact ledSetBrightness_overlay upper s i _
    · rfl
  | color i components =>
    simp only [step, hleds]
    split
    · rw [overlay_update, ledSetBrightness_overlay]
    · rfl
  | activate i =>
    simp only [step, hleds]
    split
    · simp only [hwtrigActivate, regs_overlay_swOverrideReg, hleds]
      exact writeOverride_overlay upper s _
    · rfl
  | deactivate i =>
    simp only [step, hleds]
    split
    · simp only [hwtrigDeactivate, regs_overlay_swOverrideReg, hleds]
      exact writeOverride_overlay upper s _
    · rfl
  | updateBrightness i =>
    simp only [step, hleds]
    split
    · have hget : brightnessGet (s.overlay upper) i = brightnessGet s i := by
        simp only [brightnessGet, regs_overlay_swOverrideReg, regs_overlay_swDisableReg, hleds]
      rw [overlay_update, hget]
    · rfl

end Step

/-! ### The registers stand for a controller -/

private theorem controllerReg_globalBrightnessReg (lvl : ℕ) :
    ControllerReg (globalBrightnessReg lvl) := by
  simp only [ControllerReg, globalLevelReg, globalBrightnessReg, regOff]
  omega

private theorem controllerReg_globalLevelReg : ControllerReg globalLevelReg := .inl rfl

private theorem globalBrightnessReg_ne (lvl : ℕ) : globalBrightnessReg lvl ≠ globalLevelReg := by
  simp only [globalLevelReg, globalBrightnessReg, regOff]
  omega

private theorem controller_overlay (upper regs : Regs) :
    controller (overlay upper regs) = controller upper := by
  simp only [controller, overlay_apply_of upper regs controllerReg_globalLevelReg,
    overlay_apply_of upper regs (controllerReg_globalBrightnessReg _)]

/-- A level that is written. -/
theorem controller_writeb {level : ℕ} (h : level < 8) (regs : Regs) :
    controller (writeb (UInt8.ofNat level) globalLevelReg regs) =
      { controller regs with level := ⟨level, h⟩ } := by
  have hlevel : Fin.ofNat 8 (UInt8.ofNat level).toNat = ⟨level, h⟩ := by
    apply Fin.ext
    rw [Fin.val_ofNat, UInt8.toNat_ofNat', Nat.mod_eq_of_lt (h.trans (by decide)),
      Nat.mod_eq_of_lt h]
  simp only [controller, writeb_of_ne (globalBrightnessReg_ne _)]
  rw [writeb, Function.update_self, hlevel]

private theorem level_eq (val : UInt8) : (val &&& 7).toNat = (Fin.ofNat 8 val.toNat).val := by
  rw [UInt8.toNat_and, Fin.val_ofNat]
  exact Nat.and_two_pow_sub_one_eq_mod val.toNat 3

private theorem levels_eq (regs : Regs) :
    levels regs = List.ofFn fun i => ((controller regs).values i).toNat := by
  rw [levels, ← List.map_coe_finRange_eq_range, List.map_map, List.ofFn_eq_map]
  rfl

/-- Each level is the number at its place. -/
theorem controller_writeLevels {numbers : List ℕ} (h : numbers.length = 8) (regs : Regs) :
    controller (writeLevels (numbers.map unsignedInt) regs) =
      { controller regs with values := fun i => UInt8.ofNat (numbers.getD i 0) } := by
  have hlevels := levels_store h regs
  have hvalues : ∀ i : Fin 8, (controller (writeLevels (numbers.map unsignedInt) regs)).values i =
      UInt8.ofNat (numbers.getD i 0) := by
    intro i
    rw [levels_eq] at hlevels
    have hi := congrArg (·[i.val]?) hlevels
    simp only [List.getElem?_ofFn, i.isLt, dif_pos, List.getElem?_map] at hi
    rw [List.getElem?_eq_getElem (h.symm ▸ i.isLt), Option.map_some] at hi
    apply UInt8.toNat.inj
    rw [UInt8.toNat_ofNat', List.getD_eq_getElem?_getD, List.getElem?_eq_getElem (h.symm ▸ i.isLt)]
    exact Option.some.inj hi
  have hlevel : writeLevels (numbers.map unsignedInt) regs globalLevelReg =
      regs globalLevelReg := by
    rw [writeLevels]
    refine List.foldlRecOn
      (motive := fun regs' : Regs => regs' globalLevelReg = regs globalLevelReg)
      (List.range 8) _ rfl ?_
    intro regs' hregs' lvl _
    rw [writeb_of_ne (globalBrightnessReg_ne lvl).symm, hregs']
  rw [← funext hvalues]
  simp only [controller, hlevel]

/-- The loop keeps the first of the nearest levels. -/
private theorem foldl_closer (regs : Regs) {brightness : ℕ} (h : brightness ≤ 255)
    (lvls : List (Fin 8)) :
    (lvls.map Fin.val).foldl (closer regs brightness) (2147483647, 0) =
      match lvls.argmin ((controller regs).error brightness) with
      | none => (2147483647, 0)
      | some level => ((controller regs).error brightness level, level.val) := by
  induction lvls using List.reverseRecOn with
  | nil => rfl
  | append_singleton lvls level ih =>
    have herror : levelError regs brightness level = (controller regs).error brightness level := rfl
    rw [List.map_append, List.foldl_append, ih, List.argmin_concat, List.map_singleton,
      List.foldl_cons, List.foldl_nil, closer, herror]
    cases lvls.argmin ((controller regs).error brightness) with
    | none =>
      -- The first level is nearer than `INT_MAX`.
      have hlt : (controller regs).error brightness level < 2147483647 := by
        have hval := ((controller regs).values level).toNat_lt
        simp only [Controller.error]
        omega
      exact if_pos hlt
    | some best =>
      simp only
      split
      · rfl
      · rfl

private theorem bestLevel_eq (regs : Regs) {brightness : ℕ} (h : brightness ≤ 255) :
    bestLevel regs brightness = (controller regs).nearest brightness := by
  have hloop := foldl_closer regs h (List.finRange 8)
  rw [List.map_coe_finRange_eq_range] at hloop
  rw [bestLevel, hloop, Controller.nearest]
  cases (List.finRange 8).argmin ((controller regs).error brightness) with
  | none => rfl
  | some level => rfl

/-- What is written to an attribute is written to the controller. -/
theorem controller_store (attr : Attribute) (regs : Regs) (buf : List Char) :
    controller (attr.store regs buf).2 = (controller regs).write attr buf := by
  cases attr with
  | brightness =>
    simp only [Attribute.store, brightnessStore, Controller.write]
    cases kstrtoul 32 (cString buf) with
    | none => rfl
    | some brightness =>
      simp only
      split
      · rfl
      · next h =>
        rw [bestLevel_eq regs (by omega), controller_writeb (Fin.isLt _)]
  | brightnessLevel =>
    simp only [Attribute.store, brightnessLevelStore, Controller.write]
    cases kstrtoul 32 (cString buf) with
    | none => rfl
    | some level =>
      simp only
      split
      · next h => rw [dif_neg (by omega)]
      · next h => rw [dif_pos (by omega), controller_writeb (by omega)]
  | brightnessValues =>
    simp only [Attribute.store, brightnessValuesStore, Controller.write]
    cases haccepted : acceptedNumbers buf with
    | none => rfl
    | some numbers =>
      obtain ⟨rest, hscan⟩ := scanNumbers_of_accepted haccepted
      exact controller_writeLevels (length_of_scanNumbers hscan) regs

/-- What an attribute shows is what the controller says. -/
theorem show_eq (attr : Attribute) (regs : Regs) :
    attr.show regs = (controller regs).print attr := by
  cases attr with
  | brightness =>
    simp only [Attribute.show, brightnessShow, level_eq]
    rfl
  | brightnessLevel =>
    simp only [Attribute.show, brightnessLevelShow, level_eq]
    rfl
  | brightnessValues =>
    simp only [Attribute.show, brightnessValuesShow, levels_eq]
    rfl

/-- Writing to an attribute leaves the registers of the LEDs. -/
theorem overlay_store (attr : Attribute) (regs : Regs) (buf : List Char) :
    overlay (attr.store regs buf).2 regs = (attr.store regs buf).2 := by
  have hwrite : ∀ val off, ControllerReg off → ∀ regs',
      overlay regs' regs = regs' → overlay (writeb val off regs') regs = writeb val off regs' := by
    intro val off hoff regs' hregs'
    funext off'
    by_cases hoff' : ControllerReg off'
    · exact overlay_apply_of _ _ hoff'
    · have hne : off' ≠ off := fun heq => hoff' (heq ▸ hoff)
      rw [overlay_apply _ _ hoff', writeb_of_ne hne, ← hregs', overlay_apply _ _ hoff']
  have hself := overlay_self regs
  cases attr with
  | brightness =>
    simp only [Attribute.store, brightnessStore]
    split
    · exact hself
    · split
      · exact hself
      · exact hwrite _ _ controllerReg_globalLevelReg regs hself
  | brightnessLevel =>
    simp only [Attribute.store, brightnessLevelStore]
    split
    · exact hself
    · split
      · exact hself
      · exact hwrite _ _ controllerReg_globalLevelReg regs hself
  | brightnessValues =>
    simp only [Attribute.store, brightnessValuesStore]
    split
    · exact hself
    · next numbers _ =>
      rw [writeLevels]
      generalize List.range 8 = lvls
      refine List.foldlRecOn (motive := fun regs' : Regs => overlay regs' regs = regs') lvls _
        hself ?_
      intro regs' hregs' lvl _
      exact hwrite _ _ (controllerReg_globalBrightnessReg lvl) regs' hregs'

/-! ### The nearest level -/

/-- The controller has the first of the levels that are nearest to a brightness. -/
structure Controller.SetsNearest (c c' : Controller) (brightness : ℕ) : Prop where
  values_eq : c'.values = c.values
  error_le : ∀ level, c.error brightness c'.level ≤ c.error brightness level
  level_le : ∀ level, c.error brightness level ≤ c.error brightness c'.level → c'.level ≤ level

private theorem Controller.nearest_mem (c : Controller) (brightness : ℕ) :
    c.nearest brightness ∈ (List.finRange 8).argmin (c.error brightness) := by
  rw [nearest]
  cases hmin : (List.finRange 8).argmin (c.error brightness) with
  | none => exact absurd (List.argmin_eq_none.mp hmin) (by decide)
  | some level => rfl

private theorem Controller.setsNearest (c : Controller) (brightness : ℕ) :
    c.SetsNearest { c with level := c.nearest brightness } brightness where
  values_eq := rfl
  error_le level := List.le_of_mem_argmin (List.mem_finRange level) (c.nearest_mem brightness)
  level_le level hle := by
    have hindex := List.index_of_argmin (c.nearest_mem brightness) (List.mem_finRange level) hle
    rwa [List.idxOf_finRange, List.idxOf_finRange] at hindex

/-- A brightness that is on is nearest to itself. -/
theorem Controller.SetsNearest.brightness_eq {c c' : Controller}
    (h : c.SetsNearest c' c.brightness) : c'.brightness = c.brightness := by
  have hle := h.error_le c.level
  simp only [error, brightness, h.values_eq] at hle ⊢
  omega

private theorem cString_line (n : ℕ) : cString (line n) = line n := by
  refine List.takeWhile_eq_self_iff.mpr fun c hc => bne_iff_ne.mpr ?_
  rintro rfl
  rcases List.mem_append.mp hc with hc | hc
  · exact absurd (isDigit_of_mem hc) (by decide)
  · exact absurd hc (by decide)

private theorem kstrtoul_cString_line {n : ℕ} (h : n < 256) :
    kstrtoul 32 (cString (line n)) = some n := by
  have hlt : n < 2 ^ 32 := by omega
  rw [cString_line]
  exact kstrtoul_line hlt

/-- What an attribute shows can be written to it, and then nothing that is shown is different, but
for the level when its brightness is that of an earlier one. -/
structure WritesBackTo (attr : Attribute) (regs : Regs) : Prop where
  accepted : (attr.store regs (attr.show regs)).1 = some (attr.show regs).length
  values_eq : brightnessValuesShow (attr.store regs (attr.show regs)).2 = brightnessValuesShow regs
  brightness_eq : brightnessShow (attr.store regs (attr.show regs)).2 = brightnessShow regs
  self_eq : attr.show (attr.store regs (attr.show regs)).2 = attr.show regs

/-- It is enough to know what happens to the controller. -/
theorem WritesBackTo.of_controller {attr : Attribute} {regs : Regs}
    (haccepted : (attr.store regs (attr.show regs)).1 = some (attr.show regs).length)
    {c : Controller} (hc : (controller regs).write attr (attr.show regs) = c)
    (hvalues : c.values = (controller regs).values)
    (hbrightness : c.brightness = (controller regs).brightness)
    (hself : c.print attr = (controller regs).print attr) : WritesBackTo attr regs := by
  rw [← controller_store] at hc
  have hshow : ∀ attr', attr'.show (attr.store regs (attr.show regs)).2 = c.print attr' := by
    intro attr'
    rw [show_eq, hc]
  refine ⟨haccepted, (hshow .brightnessValues).trans ?_, (hshow .brightness).trans ?_,
    (hshow attr).trans (hself.trans (show_eq attr regs).symm)⟩
  · rw [Controller.print, hvalues]
    exact (show_eq .brightnessValues regs).symm
  · rw [Controller.print, hbrightness]
    exact (show_eq .brightness regs).symm

private theorem writesBackTo (attr : Attribute) (regs : Regs) : WritesBackTo attr regs := by
  cases attr with
  | brightness =>
    have hlt : (controller regs).brightness < 256 := UInt8.toNat_lt _
    have hle : ¬255 < (controller regs).brightness := by omega
    have hread : kstrtoul 32 (cString (Attribute.brightness.show regs)) =
        some (controller regs).brightness := by
      rw [show_eq]
      exact kstrtoul_cString_line hlt
    have hsets := (controller regs).setsNearest (controller regs).brightness
    refine .of_controller ?_ (c := { controller regs with
      level := (controller regs).nearest (controller regs).brightness }) ?_ rfl
      hsets.brightness_eq ?_
    · simp only [Attribute.store, brightnessStore, hread, if_neg hle]
    · simp only [Controller.write, hread, if_neg hle]
    · simp only [Controller.print, hsets.brightness_eq]
  | brightnessLevel =>
    have hlt := (controller regs).level.isLt
    have hle : ¬7 < (controller regs).level.val := by omega
    have hread : kstrtoul 32 (cString (Attribute.brightnessLevel.show regs)) =
        some (controller regs).level.val := by
      rw [show_eq]
      exact kstrtoul_cString_line (by omega)
    refine .of_controller ?_ (c := controller regs) ?_ rfl rfl rfl
    · simp only [Attribute.store, brightnessLevelStore, hread, if_neg hle]
    · simp only [Controller.write, hread, dif_pos hlt]
  | brightnessValues =>
    have hback : Attribute.brightnessValues.store regs (Attribute.brightnessValues.show regs) =
        (some (Attribute.brightnessValues.show regs).length, regs) := writesBack regs
    refine ⟨?_, ?_, ?_, ?_⟩ <;> rw [hback]

/-- A brightness up to 255 in a text. -/
def acceptedBrightness (buf : List Char) : Option ℕ :=
  (kstrtoul 32 (cString buf)).filter (· ≤ 255)

private theorem brightnessStore_eq (regs : Regs) (buf : List Char) :
    brightnessStore regs buf = (acceptedBrightness buf).elim (none, regs) fun brightness =>
      (some buf.length, writeb (UInt8.ofNat (bestLevel regs brightness)) globalLevelReg regs) := by
  rw [brightnessStore, acceptedBrightness]
  cases kstrtoul 32 (cString buf) with
  | none => rfl
  | some brightness =>
    by_cases hle : brightness ≤ 255
    · rw [Option.filter_some_pos (by simpa using hle)]
      exact if_neg (by omega)
    · rw [Option.filter_some_neg (by simpa using hle)]
      exact if_pos (by omega)

/-- **The nearest level.** What is written to `brightness` is refused, and then nothing happens,
unless it is a number up to 255, and then the first of the nearest levels is on. What an attribute
shows can be written back to it. -/
theorem brightness_nearest (regs : Regs) :
    (∀ buf, acceptedBrightness buf = none ∧ brightnessStore regs buf = (none, regs) ∨
      ∃ brightness, acceptedBrightness buf = some brightness ∧
        (brightnessStore regs buf).1 = some buf.length ∧
        (controller regs).SetsNearest (controller (brightnessStore regs buf).2) brightness) ∧
      ∀ attr, WritesBackTo attr regs := by
  refine ⟨fun buf => ?_, fun attr => writesBackTo attr regs⟩
  rw [brightnessStore_eq]
  cases haccepted : acceptedBrightness buf with
  | none => exact .inl ⟨rfl, rfl⟩
  | some brightness =>
    have hle : brightness ≤ 255 := by
      simpa using (Option.filter_eq_some_iff.mp haccepted).2
    refine .inr ⟨brightness, rfl, rfl, ?_⟩
    have hcontroller := controller_writeb (Fin.isLt ((controller regs).nearest brightness)) regs
    rw [Option.elim_some, bestLevel_eq regs hle, hcontroller]
    exact (controller regs).setsNearest brightness

/-! ### Runs -/

/-- The operation of the LEDs in an access. -/
def Access.operation : Access → Option Operation
  | led op => some op
  | _ => none

/-- What an access does to the controller. -/
def Controller.access (c : Controller) : Access → Controller
  | .led _ => c
  | .write attr buf => c.write attr buf
  | .button val => { c with level := Fin.ofNat 8 val.toNat }

private theorem controller_step (s : Leds) (op : Operation) :
    controller (step s op).regs = controller s.regs := by
  have hself : s.overlay s.regs = s := by
    simp only [Leds.overlay, overlay_self]
  have hstep := step_overlay s.regs s op
  rw [hself] at hstep
  rw [hstep]
  exact controller_overlay s.regs _

private theorem controller_access (s : Leds) (a : Access) :
    controller (access s a).regs = (controller s.regs).access a := by
  cases a with
  | led op => exact controller_step s op
  | write attr buf => exact controller_store attr s.regs buf
  | button val =>
    simp only [access, Controller.access, controller, writeb_of_ne (globalBrightnessReg_ne _)]
    rw [writeb, Function.update_self]

/-- Seen from the LEDs, only the registers of the controller change when nothing is done to the
LEDs themselves. -/
theorem access_overlay (s : Leds) {a : Access} (h : a.operation = none) :
    access s a = s.overlay (access s a).regs := by
  cases a with
  | led op => cases h
  | write attr buf => simp only [access, Leds.overlay, overlay_store]
  | button val =>
    have hregs : overlay (writeb val globalLevelReg s.regs) s.regs =
        writeb val globalLevelReg s.regs := by
      funext off
      by_cases hoff : ControllerReg off
      · exact overlay_apply_of _ _ hoff
      · have hne : off ≠ globalLevelReg := fun heq => hoff (.inl heq)
        rw [overlay_apply _ _ hoff, writeb_of_ne hne]
    simp only [access, Leds.overlay, hregs]

/-- An access as the LEDs see it, when the registers of the controller are anything. -/
theorem access_from_overlay (s : Leds) (upper : Regs) (a : Access) :
    access (s.overlay upper) a =
      (a.operation.elim s (step s)).overlay (access (s.overlay upper) a).regs := by
  cases hop : a.operation with
  | none => exact (access_overlay _ hop).trans (s.overlay_overlay _ _)
  | some op =>
    obtain rfl : a = .led op := by
      cases a with
      | led op' => exact congrArg Access.led (Option.some.inj hop)
      | write attr buf => cases hop
      | button val => cases hop
    simp only [access, step_overlay, Option.elim_some, Leds.overlay_regs]

/-- **The controller and the LEDs.** Whatever is done to the LEDs, written to the attributes and
set by the button, in whatever order: the attributes show what a controller shows that has seen
the writes and the button alone, and the LEDs are as their own operations alone make them. -/
theorem controller_beside_leds (s : Leds) (accesses : List Access) :
    (∀ attr, attr.show (accesses.foldl access s).regs =
        (accesses.foldl Controller.access (controller s.regs)).print attr) ∧
      accesses.foldl access s =
        ((accesses.filterMap Access.operation).foldl step s).overlay
          (accesses.foldl access s).regs := by
  constructor
  · intro attr
    rw [show_eq, List.foldl_hom (fun s : Leds => controller s.regs) fun s a =>
      (controller_access s a).symm]
  · induction accesses using List.reverseRecOn with
    | nil => simp only [List.foldl_nil, List.filterMap_nil, Leds.overlay, overlay_self]
    | append_singleton accesses a ih =>
      rw [List.foldl_concat, List.filterMap_append, List.foldl_append]
      generalize accesses.foldl access s = t at ih ⊢
      have hlast :=
        access_from_overlay ((accesses.filterMap Access.operation).foldl step s) t.regs a
      rw [← ih] at hlast
      cases hop : a.operation with
      | none =>
        rw [hop] at hlast
        rwa [List.filterMap_cons_none hop]
      | some op =>
        rw [hop] at hlast
        rwa [List.filterMap_cons_some hop]

end TurrisBuild.Turris1xLeds
