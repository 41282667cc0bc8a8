import Mathlib.Algebra.Ring.Nat
import Mathlib.Data.List.TakeWhile

/-!
# Numbers in a format of the kernel

What the kernel's `sscanf` and `sprintf` do with a format of several `%u` that have blanks
between them. The digits of a number are read as they are, and the conversion to an
unsigned integer is left to the caller.
-/

namespace Scanf

/-- `isspace` of the kernel, where also the code 160 is a blank -/
def isSpace (c : Char) : Bool := (9 ≤ c.toNat && c.toNat ≤ 13) || c.toNat == 32 || c.toNat == 160

/-- `skip_spaces` -/
def skipSpaces (text : List Char) : List Char := text.dropWhile isSpace

/-- A `%u` with the number that it reads and the text behind. -/
def scanNumber (text : List Char) : Option (ℕ × List Char) :=
  let text := skipSpaces text
  let digits := text.takeWhile Char.isDigit
  if digits.isEmpty then none
  else some (Nat.ofDigitChars 10 digits 0, text.dropWhile Char.isDigit)

/-- So many `%u` with blanks between them, which skip blanks as `%u` itself does. -/
def scanNumbers : ℕ → List Char → Option (List ℕ × List Char)
  | 0, text => some ([], text)
  | count + 1, text =>
    match scanNumber text with
    | none => none
    | some (n, text) =>
      match scanNumbers count text with
      | none => none
      | some (ns, text) => some (n :: ns, text)

/-- Numbers with blanks between them. -/
def printNumbers (ns : List ℕ) : List Char := [' '].intercalate (ns.map (Nat.toDigits 10))

/-- Numbers are printed with a blank in between. -/
theorem printNumbers_cons_cons (n m : ℕ) (ms : List ℕ) :
    printNumbers (n :: m :: ms) = Nat.toDigits 10 n ++ ' ' :: printNumbers (m :: ms) := by
  rw [printNumbers, List.map_cons, List.map_cons, List.intercalate_cons_cons, ← List.map_cons,
    ← printNumbers, List.append_assoc, List.singleton_append]

/-- A printed number has digits only. -/
theorem isDigit_of_mem {n : ℕ} {c : Char} (h : c ∈ Nat.toDigits 10 n) : c.isDigit = true :=
  Nat.isDigit_of_mem_toDigits (by decide) (by decide) h

/-- No digit is a blank. -/
theorem isSpace_of_isDigit {c : Char} (h : c.isDigit = true) : isSpace c = false := by
  have hcode : 48 ≤ c.toNat ∧ c.toNat ≤ 57 := Char.isDigit_iff_toNat.mp h
  simp only [isSpace, Bool.or_eq_false_iff, Bool.and_eq_false_iff, decide_eq_false_iff_not,
    beq_eq_false_iff_ne]
  omega

/-- A number is read back when no digit follows it. -/
theorem scanNumber_append (n : ℕ) {rest : List Char}
    (hrest : ∀ c ∈ rest.head?, c.isDigit = false) :
    scanNumber (Nat.toDigits 10 n ++ rest) = some (n, rest) := by
  have hne : Nat.toDigits 10 n ≠ [] := Nat.toDigits_ne_nil
  have hskip : skipSpaces (Nat.toDigits 10 n ++ rest) = Nat.toDigits 10 n ++ rest := by
    obtain ⟨c, digits, hdigits⟩ := List.exists_cons_of_ne_nil hne
    have hc : c.isDigit = true := isDigit_of_mem (by rw [hdigits]; exact List.mem_cons_self)
    rw [skipSpaces, hdigits, List.cons_append,
      List.dropWhile_cons_of_neg (by rw [isSpace_of_isDigit hc]; exact Bool.false_ne_true)]
  have htake : rest.takeWhile Char.isDigit = [] ∧ rest.dropWhile Char.isDigit = rest := by
    cases rest with
    | nil => exact ⟨rfl, rfl⟩
    | cons c rest =>
      have hc : ¬c.isDigit = true := Bool.eq_false_iff.mp (hrest c rfl)
      exact ⟨List.takeWhile_cons_of_neg hc, List.dropWhile_cons_of_neg hc⟩
  have hdigits : ∀ c ∈ Nat.toDigits 10 n, c.isDigit = true := fun c hc => isDigit_of_mem hc
  rw [scanNumber, hskip, List.takeWhile_append_of_pos hdigits,
    List.dropWhile_append_of_pos hdigits, htake.1, htake.2, List.append_nil]
  simp only [List.isEmpty_iff, hne, if_false, Nat.ofDigitChars_ten_toDigits]

/-- The same with a blank before the number. -/
theorem scanNumber_space (text : List Char) : scanNumber (' ' :: text) = scanNumber text := rfl

/-- A blank in front of a number is skipped. -/
theorem scanNumbers_space (count : ℕ) (text : List Char) :
    scanNumbers (count + 1) (' ' :: text) = scanNumbers (count + 1) text := by
  rw [scanNumbers, scanNumbers, scanNumber_space]

/-- Printed numbers are read back. -/
theorem scanNumbers_printNumbers {ns : List ℕ} (hne : ns ≠ []) {rest : List Char}
    (hrest : ∀ c ∈ rest.head?, c.isDigit = false) :
    scanNumbers ns.length (printNumbers ns ++ rest) = some (ns, rest) := by
  induction ns with
  | nil => exact absurd rfl hne
  | cons n ns ih =>
    cases ns with
    | nil =>
      rw [printNumbers, List.map_singleton, List.intercalate_singleton, List.length_singleton,
        scanNumbers, scanNumber_append n hrest]
      rfl
    | cons m ms =>
      have hblank : ∀ c ∈ (' ' :: (printNumbers (m :: ms) ++ rest)).head?, c.isDigit = false := by
        rintro c ⟨⟩
        rfl
      rw [printNumbers_cons_cons, List.append_assoc, List.cons_append, List.length_cons,
        scanNumbers, scanNumber_append n hblank]
      simp only
      rw [List.length_cons, scanNumbers_space, ← List.length_cons, ih (List.cons_ne_nil m ms)]

/-- As many numbers are read as are asked for. -/
theorem length_of_scanNumbers {count : ℕ} {text rest : List Char} {numbers : List ℕ}
    (h : scanNumbers count text = some (numbers, rest)) : numbers.length = count := by
  induction count generalizing text numbers with
  | zero =>
    obtain ⟨rfl, -⟩ := Prod.mk.inj (Option.some.inj h)
    rfl
  | succ count ih =>
    rw [scanNumbers] at h
    split at h
    · cases h
    · split at h
      · cases h
      · next hrest =>
        obtain ⟨rfl, rfl⟩ := Prod.mk.inj (Option.some.inj h)
        rw [List.length_cons, ih hrest]

/-- Numbers are known from their print. -/
theorem printNumbers_injective {ns ms : List ℕ} (hlength : ns.length = ms.length)
    (h : printNumbers ns = printNumbers ms) : ns = ms := by
  cases ns with
  | nil => exact (List.length_eq_zero_iff.mp hlength.symm).symm
  | cons n ns =>
    have hne : ms ≠ [] := by
      rintro rfl
      cases hlength
    have hrest : ∀ c ∈ ([] : List Char).head?, c.isDigit = false := by simp
    have hn := scanNumbers_printNumbers (List.cons_ne_nil n ns) hrest
    have hm := scanNumbers_printNumbers hne hrest
    rw [hlength, h, hm] at hn
    exact (Prod.mk.inj (Option.some.inj hn)).1.symm

/-- `kstrtoul` in base 10 for an `unsigned long` of so many bits: digits, with a sign before them
and a newline behind them or not. -/
def kstrtoul (bits : ℕ) (text : List Char) : Option ℕ :=
  let text := if text.head? = some '+' then text.tail else text
  let digits := text.takeWhile Char.isDigit
  let rest := text.dropWhile Char.isDigit
  let n := Nat.ofDigitChars 10 digits 0
  if digits.isEmpty || decide (2 ^ bits ≤ n) then none
  else if rest = [] ∨ rest = ['\n'] then some n
  else none

/-- A number that is printed on a line of its own is read back. -/
theorem kstrtoul_line {bits n : ℕ} (hn : n < 2 ^ bits) :
    kstrtoul bits (Nat.toDigits 10 n ++ ['\n']) = some n := by
  have hdigits : ∀ c ∈ Nat.toDigits 10 n, c.isDigit = true := fun c hc => isDigit_of_mem hc
  have hne : Nat.toDigits 10 n ≠ [] := Nat.toDigits_ne_nil
  have hsign : (Nat.toDigits 10 n ++ ['\n']).head? ≠ some '+' := by
    obtain ⟨c, digits, heq⟩ := List.exists_cons_of_ne_nil hne
    rw [heq, List.cons_append, List.head?_cons]
    intro hplus
    obtain rfl := Option.some.inj hplus
    have hplus : ('+' : Char).isDigit = true := hdigits '+' (by rw [heq]; exact List.mem_cons_self)
    exact absurd hplus (by decide)
  have htake : (Nat.toDigits 10 n ++ ['\n']).takeWhile Char.isDigit = Nat.toDigits 10 n := by
    rw [List.takeWhile_append_of_pos hdigits]
    exact List.append_nil _
  have hdrop : (Nat.toDigits 10 n ++ ['\n']).dropWhile Char.isDigit = ['\n'] := by
    rw [List.dropWhile_append_of_pos hdigits]
    rfl
  rw [kstrtoul, if_neg hsign, htake, hdrop]
  simp only [Nat.ofDigitChars_ten_toDigits, not_le.mpr hn, decide_false, Bool.or_false,
    List.isEmpty_eq_false_iff.mpr hne, Bool.false_eq_true, if_false, or_true, if_true]

/-- Printed numbers are digits and blanks. -/
theorem printNumbers_chars {ns : List ℕ} {c : Char} (h : c ∈ printNumbers ns) :
    c.isDigit = true ∨ c = ' ' := by
  induction ns with
  | nil => cases h
  | cons n ns ih =>
    cases ns with
    | nil =>
      rw [printNumbers, List.map_singleton, List.intercalate_singleton] at h
      exact .inl (isDigit_of_mem h)
    | cons m ms =>
      rw [printNumbers_cons_cons, List.mem_append, List.mem_cons] at h
      rcases h with h | h | h
      · exact .inl (isDigit_of_mem h)
      · exact .inr h
      · exact ih h

end Scanf
