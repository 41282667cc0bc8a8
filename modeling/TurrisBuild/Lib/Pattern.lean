import Mathlib.Data.List.Forall2

/-!
# Patterns of `sed` and `grep`

The regular expression engines of the two tools are parameters here. What is
fixed is their documented meaning on an anchored pattern that has no operator
but the dot, which stands for any character.
-/

namespace Pattern

/-- A regular expression engine refuses a pattern or decides lines by it. -/
abbrev Engine := List Char → Option (List Char → Bool)

/-- The engine accepts the pattern and the pattern selects the line. -/
def Engine.selects (engine : Engine) (pattern line : List Char) : Bool :=
  match engine pattern with
  | some decides => decides line
  | none => false

/-- The line begins like the text, a dot in the text standing for any character. -/
def beginsLike : List Char → List Char → Bool
  | [], _ => true
  | _ :: _, [] => false
  | p :: ps, c :: cs => (p == '.' || p == c) && beginsLike ps cs

/-- The whole line is like the text. -/
def isLike (text line : List Char) : Bool :=
  text.length == line.length && beginsLike text line

/-- Some part of the line is like the text. -/
def foundIn (text : List Char) : List Char → Bool
  | [] => text.isEmpty
  | c :: line => beginsLike text (c :: line) || foundIn text line

/-- The characters with a meaning of their own in a basic regular expression
between two slashes. -/
def basicOperators : List Char := ['\\', '.', '[', ']', '*', '^', '$', '/', '\n']

/-- The characters with a meaning of their own in an extended regular expression. -/
def extendedOperators : List Char :=
  ['\\', '.', '[', ']', '(', ')', '*', '+', '?', '{', '}', '|', '^', '$', '\n']

/-- The dot is the only operator in the text. -/
def OnlyDots (operators text : List Char) : Prop := ∀ c ∈ text, c ∈ operators → c = '.'

instance (operators text : List Char) : Decidable (OnlyDots operators text) :=
  List.decidableBAll (fun c => c ∈ operators → c = '.') text

/-- What both tools promise of a pattern that is anchored at one or both ends
and has no operator but the dot in between. -/
structure Engine.Lawful (engine : Engine) (operators : List Char) : Prop where
  begins {text : List Char} (htext : OnlyDots operators text) :
    engine ('^' :: text) = some (beginsLike text)
  whole {text : List Char} (htext : OnlyDots operators text) :
    engine ('^' :: (text ++ ['$'])) = some (isLike text)

/-! ### Likeness -/

/-- The part has the characters of the text, but any character where the text has a dot. -/
def Like (text part : List Char) : Prop := List.Forall₂ (fun p c => p = '.' ∨ p = c) text part

/-- Every text is like itself. -/
theorem Like.refl (text : List Char) : Like text text := List.forall₂_same.mpr fun _ _ => .inr rfl

/-- Only a text itself is like a text without dots. -/
theorem like_iff_eq {text part : List Char} (hdots : '.' ∉ text) :
    Like text part ↔ text = part := by
  refine ⟨fun hlike => ?_, fun heq => heq ▸ Like.refl text⟩
  induction hlike with
  | nil => rfl
  | cons hhead _ ih =>
    rw [List.mem_cons, not_or] at hdots
    rw [hhead.resolve_left (Ne.symm hdots.1), ih hdots.2]

/-- Likeness of a text in two pieces. -/
theorem like_append_iff {text₁ text₂ part : List Char} :
    Like (text₁ ++ text₂) part ↔
      ∃ part₁ part₂, part = part₁ ++ part₂ ∧ Like text₁ part₁ ∧ Like text₂ part₂ := by
  constructor
  · intro hlike
    refine ⟨part.take text₁.length, part.drop text₁.length,
      (List.take_append_drop _ part).symm, ?_, ?_⟩
    · simpa [Like] using List.forall₂_take text₁.length hlike
    · simpa [Like] using List.forall₂_drop text₁.length hlike
  · rintro ⟨part₁, part₂, rfl, hlike₁, hlike₂⟩
    exact List.rel_append hlike₁ hlike₂

/-- A line begins like a text when one of its beginnings is like it. -/
theorem beginsLike_iff {text line : List Char} :
    beginsLike text line = true ↔ ∃ part, part <+: line ∧ Like text part := by
  induction text generalizing line with
  | nil => exact iff_of_true (by simp [beginsLike]) ⟨[], List.nil_prefix, .nil⟩
  | cons p text ih =>
    cases line with
    | nil => simp [beginsLike, Like, List.forall₂_cons_left_iff]
    | cons c line =>
      simp only [beginsLike, Bool.and_eq_true, Bool.or_eq_true, beq_iff_eq, ih]
      constructor
      · rintro ⟨hhead, part, hprefix, hlike⟩
        exact ⟨c :: part, List.cons_prefix_cons.mpr ⟨rfl, hprefix⟩, .cons hhead hlike⟩
      · rintro ⟨part, hprefix, hlike⟩
        obtain ⟨c', part', hhead, htail, rfl⟩ := List.forall₂_cons_left_iff.mp hlike
        obtain ⟨rfl, hrest⟩ := List.cons_prefix_cons.mp hprefix
        exact ⟨hhead, part', hrest, htail⟩

/-- A text is found in a line when a part of the line is like it. -/
theorem foundIn_iff {text line : List Char} :
    foundIn text line = true ↔ ∃ part, part <:+: line ∧ Like text part := by
  induction line with
  | nil => cases text <;> simp [foundIn, Like, List.forall₂_cons_left_iff]
  | cons c line ih =>
    rw [foundIn, Bool.or_eq_true, beginsLike_iff, ih, ← exists_or]
    refine exists_congr fun part => ?_
    rw [List.infix_cons_iff, or_and_right]

/-- A whole line is like a text when it is so character by character. -/
theorem isLike_iff {text line : List Char} : isLike text line = true ↔ Like text line := by
  rw [isLike, Bool.and_eq_true, beq_iff_eq, beginsLike_iff]
  constructor
  · rintro ⟨hlength, part, hprefix, hlike⟩
    rwa [← hprefix.eq_of_length ((List.Forall₂.length_eq hlike).symm.trans hlength)]
  · intro hlike
    exact ⟨List.Forall₂.length_eq hlike, line, List.prefix_rfl, hlike⟩

/-- Every line begins like each of its beginnings. -/
theorem beginsLike_of_prefix {text line : List Char} (h : text <+: line) :
    beginsLike text line = true := beginsLike_iff.mpr ⟨text, h, .refl text⟩

/-- A text is found in every line that it is a part of. -/
theorem foundIn_of_infix {text line : List Char} (h : text <:+: line) :
    foundIn text line = true := foundIn_iff.mpr ⟨text, h, .refl text⟩

/-! ### An engine for anchored patterns -/

/-- The engine that knows both anchors and the dot. -/
def anchored : Engine
  | '^' :: text =>
    if text.getLast? = some '$' then some (isLike text.dropLast) else some (beginsLike text)
  | _ => none

/-- It is lawful for every set of operators that has the dollar sign. -/
theorem anchored_lawful {operators : List Char} (hdollar : '$' ∈ operators) :
    anchored.Lawful operators where
  begins {text} htext := by
    have hlast : text.getLast? ≠ some '$' := by
      intro h
      have := htext '$' (List.mem_of_getLast? h) hdollar
      contradiction
    simp [anchored, hlast]
  whole {text} _ := by simp [anchored]

end Pattern
