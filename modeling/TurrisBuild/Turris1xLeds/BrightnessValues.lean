import Mathlib.Algebra.Ring.Nat
import TurrisBuild.Lib.Scanf
import TurrisBuild.Turris1xLeds.Driver

/-!
# The brightness levels of the LED controller

The attribute `brightness_values` shows the eight levels between which the button cycles, and
writing it sets them. Its text may have any unsigned numbers, although a level is one byte:
unlike the attribute `brightness`, this one does not refuse numbers above 255.
-/

namespace TurrisBuild.Turris1xLeds

open Scanf

/-- The eight levels. -/
def levels (regs : Regs) : List ℕ :=
  (List.range 8).map fun i => (regs (globalBrightnessReg i)).toNat

/-- `brightness_values_show` -/
def brightnessValuesShow (regs : Regs) : List Char := printNumbers (levels regs) ++ ['\n']

/-- What `%u` makes of a number: it is read as an `unsigned long long`, whose low bits are
assigned to an `unsigned int`. -/
def unsignedInt (n : ℕ) : ℕ := n % 2 ^ 64 % 2 ^ 32

/-- The numbers of a text that is accepted: there are eight of them, and there is at most one
character more. The text ends for `sscanf` at the first zero byte. -/
def acceptedNumbers (buf : List Char) : Option (List ℕ) :=
  let str := buf.takeWhile (· != Char.ofNat 0)
  match scanNumbers 8 str with
  | none => none
  | some (numbers, rest) =>
    let nchars := str.length - rest.length
    if nchars + 1 < buf.length then none else some numbers

/-- The loop of `brightness_values_store` -/
def writeLevels (vals : List ℕ) (regs : Regs) : Regs :=
  (List.range 8).foldl
    (fun regs i => writeb (UInt8.ofNat (vals.getD i 0)) (globalBrightnessReg i) regs) regs

/-- `brightness_values_store`: the number of characters, or nothing for `-EINVAL`, and the
registers -/
def brightnessValuesStore (regs : Regs) (buf : List Char) : Option ℕ × Regs :=
  match acceptedNumbers buf with
  | none => (none, regs)
  | some numbers => (some buf.length, writeLevels (numbers.map unsignedInt) regs)

/-- A text that is accepted shows with its numbers afterwards, and one that is refused leaves the
levels. -/
def ReadsBack (regs : Regs) (buf : List Char) : Prop :=
  let stored := brightnessValuesStore regs buf
  (∀ count, stored.1 = some count → ∃ numbers rest,
      scanNumbers 8 (buf.takeWhile (· != Char.ofNat 0)) = some (numbers, rest) ∧
      brightnessValuesShow stored.2 = printNumbers numbers ++ ['\n']) ∧
    (stored.1 = none → levels stored.2 = levels regs)

/-- What is shown is accepted, and changes nothing. -/
def WritesBack (regs : Regs) : Prop :=
  brightnessValuesStore regs (brightnessValuesShow regs) =
    (some (brightnessValuesShow regs).length, regs)

/-- The text is not accepted, or all its numbers are bytes. -/
def OnlyBytes (buf : List Char) : Prop :=
  ∀ numbers, acceptedNumbers buf = some numbers → ∀ n ∈ numbers, n ≤ 255

/-! ### Writing the levels -/

private theorem length_levels (regs : Regs) : (levels regs).length = 8 := by
  rw [levels, List.length_map, List.length_range]

/-- Of a number that is written the low byte is left. -/
theorem levels_writeLevels {vals : List ℕ} (hlength : vals.length = 8) (regs : Regs) :
    levels (writeLevels vals regs) = vals.map (· % 256) := by
  match vals, hlength with
  | [_, _, _, _, _, _, _, _], _ =>
    simp [levels, writeLevels, List.range, List.range.loop, writeb, Function.update_apply,
      globalBrightnessReg, regOff]

private theorem unsignedInt_mod (n : ℕ) : unsignedInt n % 256 = n % 256 := by
  unfold unsignedInt
  omega

/-- Eight numbers that are written are the levels, modulo a byte. -/
theorem levels_store {numbers : List ℕ} (hlength : numbers.length = 8) (regs : Regs) :
    levels (writeLevels (numbers.map unsignedInt) regs) = numbers.map (· % 256) := by
  rw [levels_writeLevels (by rwa [List.length_map]), List.map_map]
  exact List.map_congr_left fun n _ => unsignedInt_mod n

/-- Writing the levels that are there changes no register. -/
theorem writeLevels_levels (regs : Regs) :
    writeLevels ((levels regs).map unsignedInt) regs = regs := by
  have hwrite : ∀ i ∈ List.range 8,
      writeb (UInt8.ofNat (((levels regs).map unsignedInt).getD i 0)) (globalBrightnessReg i)
        regs = regs := by
    intro i hi
    have hlt := List.mem_range.mp hi
    have hval : UInt8.ofNat (((levels regs).map unsignedInt).getD i 0) =
        regs (globalBrightnessReg i) := by
      apply UInt8.toNat.inj
      rw [UInt8.toNat_ofNat', List.getD_eq_getElem?_getD, List.getElem?_map, levels,
        List.getElem?_map, List.getElem?_range hlt, Option.map_some, Option.map_some,
        Option.getD_some, unsignedInt_mod]
      exact Nat.mod_eq_of_lt (UInt8.toNat_lt _)
    rw [hval, writeb, Function.update_eq_self]
  rw [writeLevels]
  generalize List.range 8 = indices at hwrite
  induction indices with
  | nil => rfl
  | cons i indices ih =>
    obtain ⟨hi, hindices⟩ := List.forall_mem_cons.mp hwrite
    rw [List.foldl_cons, hi, ih hindices]

/-! ### The round trip -/

private theorem acceptedNumbers_show (regs : Regs) :
    acceptedNumbers (brightnessValuesShow regs) = some (levels regs) := by
  have hstr : (brightnessValuesShow regs).takeWhile (· != Char.ofNat 0) =
      brightnessValuesShow regs := by
    refine List.takeWhile_eq_self_iff.mpr fun c hc => bne_iff_ne.mpr ?_
    rintro rfl
    rcases List.mem_append.mp hc with hc | hc
    · rcases printNumbers_chars hc with hc | hc
      · exact absurd hc (by decide)
      · exact absurd hc (by decide)
    · exact absurd hc (by decide)
  have hne : levels regs ≠ [] := by
    intro hnil
    have hlength := length_levels regs
    rw [hnil] at hlength
    cases hlength
  have hscan : scanNumbers 8 (brightnessValuesShow regs) = some (levels regs, ['\n']) := by
    rw [← length_levels regs]
    exact scanNumbers_printNumbers hne (by simp)
  have hlength : 1 ≤ (brightnessValuesShow regs).length := by
    rw [brightnessValuesShow, List.length_append, List.length_singleton]
    omega
  rw [acceptedNumbers, hstr, hscan]
  simp only [List.length_singleton]
  rw [if_neg (by omega)]

/-- What is read can be written back. -/
theorem writesBack (regs : Regs) : WritesBack regs := by
  rw [WritesBack, brightnessValuesStore, acceptedNumbers_show]
  simp only [writeLevels_levels]

/-- An accepted text has eight numbers. -/
theorem scanNumbers_of_accepted {buf : List Char} {numbers : List ℕ}
    (h : acceptedNumbers buf = some numbers) :
    ∃ rest, scanNumbers 8 (buf.takeWhile (· != Char.ofNat 0)) = some (numbers, rest) := by
  rw [acceptedNumbers] at h
  simp only at h
  split at h
  · cases h
  · next numbers' rest hscan =>
    split at h
    · cases h
    · obtain rfl := Option.some.inj h
      exact ⟨rest, hscan⟩

private theorem map_mod_eq_iff {numbers : List ℕ} :
    numbers.map (· % 256) = numbers ↔ ∀ n ∈ numbers, n ≤ 255 := by
  induction numbers with
  | nil => simp
  | cons n numbers ih =>
    rw [List.map_cons, List.cons_eq_cons, ih, List.forall_mem_cons]
    refine and_congr_left fun _ => ?_
    omega

/-- The levels show with the numbers when these are bytes. -/
private theorem show_store_iff {numbers : List ℕ} (hlength : numbers.length = 8) (regs : Regs) :
    brightnessValuesShow (writeLevels (numbers.map unsignedInt) regs) =
        printNumbers numbers ++ ['\n'] ↔ ∀ n ∈ numbers, n ≤ 255 := by
  have hlevels := levels_store hlength regs
  rw [brightnessValuesShow, List.append_left_inj, ← map_mod_eq_iff, ← hlevels]
  constructor
  · intro h
    exact printNumbers_injective (by rw [length_levels, hlength]) h
  · intro h
    rw [h]

private theorem readsBack_iff (regs : Regs) (buf : List Char) :
    ReadsBack regs buf ↔ OnlyBytes buf := by
  rw [ReadsBack, OnlyBytes, brightnessValuesStore]
  cases haccepted : acceptedNumbers buf with
  | none => simp
  | some numbers =>
    obtain ⟨rest, hscan⟩ := scanNumbers_of_accepted haccepted
    have hshow := show_store_iff (length_of_scanNumbers hscan) regs
    constructor
    · rintro ⟨hread, -⟩ numbers' heq
      obtain ⟨numbers'', rest', hscan', hshown⟩ := hread buf.length rfl
      rw [hscan] at hscan'
      obtain ⟨rfl, -⟩ := Prod.mk.inj (Option.some.inj hscan')
      rw [← Option.some.inj heq]
      exact hshow.mp hshown
    · intro hbytes
      refine ⟨fun count _ => ⟨numbers, rest, hscan, hshow.mpr (hbytes numbers rfl)⟩, ?_⟩
      intro hnone
      cases hnone

/-- **What was accepted is read back.** This holds for a text exactly when it is not accepted or
its numbers are bytes, and what is shown can always be written back. -/
theorem values_read_back (regs : Regs) :
    (∀ buf, ReadsBack regs buf ↔ OnlyBytes buf) ∧ WritesBack regs :=
  ⟨readsBack_iff regs, writesBack regs⟩

/-- A number that is no byte is accepted, and another one is shown. -/
theorem value_wraps_around :
    (brightnessValuesStore (fun _ => 7) "256 0 0 0 0 0 0 0\n".toList).1 = some 18 ∧
      brightnessValuesShow
        (brightnessValuesStore (fun _ => 7) "256 0 0 0 0 0 0 0\n".toList).2 =
          "0 0 0 0 0 0 0 0\n".toList ∧
      ¬ReadsBack (fun _ => 7) "256 0 0 0 0 0 0 0\n".toList := by
  refine ⟨by decide, by decide, fun h => ?_⟩
  obtain ⟨numbers, rest, hscan, hshow⟩ := h.1 18 (by decide)
  have hnumbers : scanNumbers 8 ("256 0 0 0 0 0 0 0\n".toList.takeWhile (· != Char.ofNat 0)) =
      some ([256, 0, 0, 0, 0, 0, 0, 0], ['\n']) := by decide
  rw [hnumbers] at hscan
  obtain ⟨rfl, -⟩ := Prod.mk.inj (Option.some.inj hscan)
  exact absurd hshow (by decide)

end TurrisBuild.Turris1xLeds
