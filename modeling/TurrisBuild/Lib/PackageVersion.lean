import Mathlib.Data.List.DropRight

/-!
# The order of package versions

The comparison of versions that `dpkg` has described and `opkg` has taken over: a version
is an upstream version and a revision, and each of these is read as texts and numbers in
turn. Numbers are compared by value, and a text by its characters, where letters come
before other characters, and the end of a text comes before both, but after a tilde.
-/

namespace PackageVersion

/-! ### The comparison -/

/-- The texts and numbers of a version. Each pair is a text without digits and the digits
behind it. -/
def parts : List Char → List (List Char × List Char)
  | [] => []
  | c :: s =>
    if c.isDigit then
      match parts s with
      | ([], digits) :: rest => ([], c :: digits) :: rest
      | rest => ([], [c]) :: rest
    else
      match parts s with
      | (text, digits) :: rest => (c :: text, digits) :: rest
      | [] => [([c], [])]

/-- The rank of a character in a text. The end of the text has rank zero. -/
def weight (c : Char) : ℤ :=
  if c = '~' then -1 else if c.isAlpha then c.toNat else c.toNat + 256

/-- The value of digits. No digits are zero. -/
def number (digits : List Char) : ℕ := Nat.ofDigitChars 10 digits 0

section Filled

variable {α : Type*} (cmp : α → α → Ordering) (fill : α)

/-- The lexicographic order when the shorter list is filled up. -/
def compareFilled (s t : List α) : Ordering :=
  (s ++ List.replicate (t.length - s.length) fill).compareLex cmp
    (t ++ List.replicate (s.length - t.length) fill)

/-- The first elements are compared first. -/
theorem compareFilled_cons_cons (a b : α) (s t : List α) :
    compareFilled cmp fill (a :: s) (b :: t) = (cmp a b).then (compareFilled cmp fill s t) := by
  simp only [compareFilled, List.length_cons, Nat.add_sub_add_right, List.cons_append,
    List.compareLex_cons_cons]

/-- A missing element is filled in on the left. -/
theorem compareFilled_nil_cons (b : α) (t : List α) :
    compareFilled cmp fill [] (b :: t) = (cmp fill b).then (compareFilled cmp fill [] t) := by
  simp only [compareFilled, List.length_cons, List.length_nil, Nat.sub_zero, Nat.zero_sub,
    List.replicate_succ, List.replicate_zero, List.append_nil, List.nil_append,
    List.compareLex_cons_cons]

/-- A missing element is filled in on the right. -/
theorem compareFilled_cons_nil (a : α) (s : List α) :
    compareFilled cmp fill (a :: s) [] = (cmp a fill).then (compareFilled cmp fill s []) := by
  simp only [compareFilled, List.length_cons, List.length_nil, Nat.sub_zero, Nat.zero_sub,
    List.replicate_succ, List.replicate_zero, List.append_nil, List.nil_append,
    List.compareLex_cons_cons]

end Filled

def compareText (s t : List Char) : Ordering :=
  compareFilled compare 0 (s.map weight) (t.map weight)

def comparePart (p q : List Char × List Char) : Ordering :=
  (compareText p.1 q.1).then (compare (number p.2) (number q.2))

/-- The comparison of upstream versions, and of revisions. -/
def compareParts (s t : List Char) : Ordering :=
  compareFilled comparePart ([], []) (parts s) (parts t)

/-- What is before the last hyphen. -/
def upstream (version : List Char) : List Char :=
  if version.contains '-' then (version.rdropWhile (· != '-')).dropLast else version

/-- What is behind the last hyphen. -/
def revision (version : List Char) : List Char :=
  if version.contains '-' then version.rtakeWhile (· != '-') else []

/-- The comparison of versions without an epoch. -/
def compareVersions (s t : List Char) : Ordering :=
  (compareParts (upstream s) (upstream t)).then (compareParts (revision s) (revision t))

/-! ### Dotted numbers -/

/-- Digits for a number, perhaps with zeros before it. -/
structure Number where
  digits : List Char
  digits_ne : digits ≠ []
  isDigit : digits.all Char.isDigit = true

def Number.value (n : Number) : ℕ := number n.digits

/-- The decimal digits of a number. -/
def Number.ofNat (n : ℕ) : Number where
  digits := Nat.toDigits 10 n
  digits_ne := Nat.toDigits_ne_nil
  isDigit := List.all_eq_true.mpr fun _ hc =>
    Nat.isDigit_of_mem_toDigits (by decide) (by decide) hc

/-- The digits of a number have its value. -/
@[simp] theorem Number.value_ofNat (n : ℕ) : (Number.ofNat n).value = n :=
  Nat.ofDigitChars_ten_toDigits

/-- Numbers with dots between them. -/
structure Dotted where
  first : Number
  rest : List Number

def Dotted.text (v : Dotted) : List Char :=
  v.first.digits ++ v.rest.flatMap fun n => '.' :: n.digits

def Dotted.values (v : Dotted) : List ℕ := v.first.value :: v.rest.map Number.value

/-- With one more number at the end. -/
def Dotted.append (v : Dotted) (n : Number) : Dotted := ⟨v.first, v.rest ++ [n]⟩

/-- The values with one more number. -/
@[simp] theorem Dotted.values_append (v : Dotted) (n : Number) :
    (v.append n).values = v.values ++ [n.value] := by
  simp [Dotted.values, Dotted.append]

/-- The text with one more number. -/
theorem Dotted.text_append (v : Dotted) (n : Number) :
    (v.append n).text = v.text ++ '.' :: n.digits := by
  simp [Dotted.text, Dotted.append]

/-- Digits are one part when no digit follows. -/
theorem parts_digits {digits s : List Char} (hne : digits ≠ [])
    (hdigits : digits.all Char.isDigit = true) (hs : ∀ d rest, parts s ≠ ([], d) :: rest) :
    parts (digits ++ s) = ([], digits) :: parts s := by
  induction digits with
  | nil => exact absurd rfl hne
  | cons c digits ih =>
    rw [List.all_cons, Bool.and_eq_true] at hdigits
    rw [List.cons_append, parts, if_pos hdigits.1]
    cases digits with
    | nil =>
      rw [List.nil_append]
      split
      · next heq => exact absurd heq (hs _ _)
      · rfl
    | cons d digits => rw [ih (by simp) hdigits.2]

/-- The parts of a text are the numbers behind its dots. -/
theorem parts_rest (ns : List Number) :
    parts (ns.flatMap fun n => '.' :: n.digits) = ns.map fun n => (['.'], n.digits) := by
  induction ns with
  | nil => rfl
  | cons n ns ih =>
    have hrest : ∀ d rest, parts (ns.flatMap fun n => '.' :: n.digits) ≠ ([], d) :: rest := by
      intro d rest heq
      rw [ih] at heq
      cases ns <;> simp at heq
    rw [List.flatMap_cons, List.cons_append, parts, if_neg (by decide),
      parts_digits n.digits_ne n.isDigit hrest, ih]
    rfl

/-- The parts of a dotted version are its numbers. -/
theorem parts_text (v : Dotted) :
    parts v.text = ([], v.first.digits) :: v.rest.map fun n => (['.'], n.digits) := by
  rw [Dotted.text, parts_digits v.first.digits_ne v.first.isDigit, parts_rest]
  intro d rest heq
  rw [parts_rest] at heq
  cases hv : v.rest <;> simp [hv] at heq

private theorem compare_rest (ns ms : List Number) :
    compareFilled comparePart ([], []) (ns.map fun n => (['.'], n.digits))
        (ms.map fun n => (['.'], n.digits)) =
      compare (ns.map Number.value) (ms.map Number.value) := by
  induction ns generalizing ms with
  | nil =>
    cases ms with
    | nil => rfl
    | cons m ms =>
      -- The end of the version comes before the dot.
      rw [List.map_nil, List.map_cons, compareFilled_nil_cons]
      rfl
  | cons n ns ih =>
    cases ms with
    | nil =>
      rw [List.map_nil, List.map_cons, compareFilled_cons_nil]
      rfl
    | cons m ms =>
      rw [List.map_cons, List.map_cons, compareFilled_cons_cons, ih, List.map_cons, List.map_cons,
        List.compare_cons_cons]
      rfl

/-- Dotted numbers are in the lexicographic order of the numbers. -/
theorem compareParts_text (v w : Dotted) :
    compareParts v.text w.text = compare v.values w.values := by
  rw [compareParts, parts_text, parts_text, compareFilled_cons_cons, compare_rest, Dotted.values,
    Dotted.values, List.compare_cons_cons]
  rfl

/-! ### Upstream version and revision -/

private theorem bne_of_mem_reverse {r : List Char} (hr : '-' ∉ r) :
    ∀ c ∈ r.reverse, (c != '-') = true := by
  intro c hc
  rw [bne_iff_ne]
  rintro rfl
  exact hr (List.mem_reverse.mp hc)

/-- The upstream version ends at the last dash. -/
theorem upstream_append {r : List Char} (hr : '-' ∉ r) (v : List Char) :
    upstream (v ++ '-' :: r) = v := by
  rw [upstream, if_pos (by simp), List.rdropWhile, List.reverse_append, List.reverse_cons,
    List.append_assoc, List.dropWhile_append_of_pos (bne_of_mem_reverse hr), List.singleton_append,
    List.dropWhile_cons_of_neg (by decide), List.reverse_cons, List.reverse_reverse,
    List.dropLast_concat]

/-- The revision is behind the last dash. -/
theorem revision_append {r : List Char} (hr : '-' ∉ r) (v : List Char) :
    revision (v ++ '-' :: r) = r := by
  rw [revision, if_pos (by simp), List.rtakeWhile, List.reverse_append, List.reverse_cons,
    List.append_assoc, List.takeWhile_append_of_pos (bne_of_mem_reverse hr), List.singleton_append,
    List.takeWhile_cons_of_neg (by decide), List.append_nil, List.reverse_reverse]

/-- A dotted number with a count as its revision. -/
theorem compareVersions_text (v w : Dotted) (m n : ℕ) :
    compareVersions (v.text ++ '-' :: Nat.toDigits 10 m) (w.text ++ '-' :: Nat.toDigits 10 n) =
      (compare v.values w.values).then (compare m n) := by
  have hhyphen : ∀ n, '-' ∉ Nat.toDigits 10 n := by
    intro n hmem
    have := Nat.isDigit_of_mem_toDigits (by decide) (by decide) hmem
    contradiction
  have hrevision : ∀ n, Nat.toDigits 10 n = (Dotted.mk (.ofNat n) []).text := by
    intro n
    rw [Dotted.text, List.flatMap_nil, List.append_nil]
    rfl
  rw [compareVersions, upstream_append (hhyphen m), upstream_append (hhyphen n),
    revision_append (hhyphen m), revision_append (hhyphen n), compareParts_text, hrevision m,
    hrevision n, compareParts_text]
  simp [Dotted.values]

end PackageVersion
