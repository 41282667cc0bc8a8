import Mathlib.Data.List.Infix
import TurrisBuild.Lib.Pattern

/-!
# Patterns with repetitions

What an extended regular expression means that has no operators but the dot and the three
repetitions, and is anchored at one or both ends. It is a sequence of pieces, each of which
stands for a run of characters.
-/

namespace Pattern

/-- The operators for repetition. -/
def repetitions : List Char := ['*', '+', '?']

/-- A character of a pattern, or the dot, and whether it may be missing or stand several
times. -/
structure Piece where
  char : Char
  optional : Bool
  many : Bool
deriving DecidableEq

/-- The characters that the piece stands for. -/
def Piece.Fits (piece : Piece) (run : List Char) : Prop :=
  (∀ c ∈ run, piece.char = '.' ∨ piece.char = c) ∧ (piece.optional = true ∨ run ≠ []) ∧
    (piece.many = true ∨ run.length ≤ 1)

/-- The operators in front of the first piece of a text, and its pieces. Of several
operators behind a character each applies to what is in front of it. -/
def readPieces : List Char → List Char × List Piece
  | [] => ([], [])
  | c :: text =>
    let rest := readPieces text
    if c ∈ repetitions then (c :: rest.1, rest.2)
    else ([], ⟨c, rest.1.any (· != '+'), rest.1.any (· != '?')⟩ :: rest.2)

/-- The pieces of a text. -/
def pieces (text : List Char) : List Piece := (readPieces text).2

/-- The line is made of runs for the pieces. -/
def Described : List Piece → List Char → Prop
  | [], line => line = []
  | piece :: ps, line => ∃ run rest, line = run ++ rest ∧ piece.Fits run ∧ Described ps rest

/-- The text has no operators but the dot and the repetitions, and begins with none of
these. -/
def Repeating (text : List Char) : Prop :=
  (∀ c ∈ text, c ∈ extendedOperators → c = '.' ∨ c ∈ repetitions) ∧
    text.head?.any (repetitions.contains ·) = false

instance (text : List Char) : Decidable (Repeating text) :=
  haveI := List.decidableBAll
    (fun c => c ∈ extendedOperators → c = '.' ∨ c ∈ repetitions) text
  inferInstanceAs (Decidable (_ ∧ _))

/-- What `grep -E` promises of such a pattern. -/
structure Engine.Repeats (engine : Engine) : Prop where
  begins {text : List Char} (htext : Repeating text) : ∃ decides,
    engine ('^' :: text) = some decides ∧
      ∀ line, decides line = true ↔ ∃ part, part <+: line ∧ Described (pieces text) part
  whole {text : List Char} (htext : Repeating text) : ∃ decides,
    engine ('^' :: (text ++ ['$'])) = some decides ∧
      ∀ line, decides line = true ↔ Described (pieces text) line

/-! ### Texts without repetitions -/

/-- Without repetitions every character is a piece of its own. -/
theorem readPieces_eq {text : List Char} (htext : ∀ c ∈ text, c ∉ repetitions) :
    readPieces text = ([], text.map (⟨·, false, false⟩)) := by
  induction text with
  | nil => rfl
  | cons c text ih =>
    obtain ⟨hc, htext⟩ := List.forall_mem_cons.mp htext
    rw [readPieces, ih htext, if_neg hc]
    rfl

/-- A single character is one that its piece accepts. -/
theorem fits_single_iff {c : Char} {run : List Char} :
    Piece.Fits ⟨c, false, false⟩ run ↔ ∃ d, run = [d] ∧ (c = '.' ∨ c = d) := by
  constructor
  · rintro ⟨hrun, hne, hlength⟩
    have hne : run ≠ [] := by simpa using hne
    have hlength : run.length ≤ 1 := by simpa using hlength
    obtain ⟨d, rest, rfl⟩ := List.exists_cons_of_ne_nil hne
    obtain rfl : rest = [] := by simpa using hlength
    exact ⟨d, rfl, hrun d List.mem_cons_self⟩
  · rintro ⟨d, rfl, hd⟩
    exact ⟨by simpa using hd, .inr (by simp), .inr (by simp)⟩

/-- Without repetitions the lines described are those like the text. -/
theorem described_iff_like {text line : List Char} (htext : ∀ c ∈ text, c ∉ repetitions) :
    Described (pieces text) line ↔ Like text line := by
  rw [pieces, readPieces_eq htext]
  clear htext
  induction text generalizing line with
  | nil => simp [Described, Like]
  | cons c text ih =>
    simp only [List.map_cons, Described, fits_single_iff, ih, Like, List.forall₂_cons_left_iff]
    constructor
    · rintro ⟨_, rest, rfl, ⟨d, rfl, hd⟩, hrest⟩
      exact ⟨d, rest, hd, hrest, rfl⟩
    · rintro ⟨d, rest, hd, hrest, rfl⟩
      exact ⟨[d], rest, rfl, ⟨d, rfl, hd⟩, hrest⟩

/-- A text without operators describes itself only. -/
theorem described_iff_eq {text line : List Char} (htext : ∀ c ∈ text, c ∉ extendedOperators) :
    Described (pieces text) line ↔ text = line := by
  have hrepetitions : ∀ c ∈ repetitions, c ∈ extendedOperators := by
    simp [repetitions, extendedOperators]
  rw [described_iff_like fun c hc hmem => htext c hc (hrepetitions c hmem), like_iff_eq]
  exact fun hdot => htext '.' hdot (by simp [extendedOperators])

/-! ### An engine for repetitions -/

/-- The description of a line, which is tried with every length of the first run. -/
def describes : List Piece → List Char → Bool
  | [], line => line.isEmpty
  | piece :: ps, line => (List.range (line.length + 1)).any fun k =>
    (line.take k).all (fun c => piece.char == '.' || piece.char == c) &&
      (piece.optional || k != 0) && (piece.many || k ≤ 1) && describes ps (line.drop k)

/-- The function decides about the description. -/
theorem describes_iff {ps : List Piece} {line : List Char} :
    describes ps line = true ↔ Described ps line := by
  induction ps generalizing line with
  | nil => simp [describes, Described]
  | cons piece ps ih =>
    simp only [describes, List.any_eq_true, List.mem_range, Bool.and_eq_true, ih, Described,
      Piece.Fits, List.all_eq_true, Bool.or_eq_true, beq_iff_eq, bne_iff_ne, decide_eq_true_eq]
    constructor
    · rintro ⟨k, hk, ⟨⟨hrun, hne⟩, hlength⟩, hrest⟩
      have htake : (line.take k).length = k := List.length_take_of_le (by omega)
      refine ⟨line.take k, line.drop k, (List.take_append_drop k line).symm, ⟨hrun, ?_, ?_⟩, hrest⟩
      · refine hne.imp_right fun hk0 hnil => hk0 ?_
        rw [← htake, hnil, List.length_nil]
      · rwa [htake]
    · rintro ⟨run, rest, rfl, ⟨hrun, hne, hlength⟩, hrest⟩
      have hk : run.length < (run ++ rest).length + 1 := by
        rw [List.length_append]
        omega
      refine ⟨run.length, hk, ⟨⟨by simpa using hrun, ?_⟩, hlength⟩, by simpa using hrest⟩
      exact hne.imp_right fun hnil => by simpa using hnil

/-- The engine that knows both anchors, the dot and the repetitions. -/
def extended : Engine
  | '^' :: text =>
    if text.getLast? = some '$' then some (describes (pieces text.dropLast))
    else some fun line => line.inits.any (describes (pieces text))
  | _ => none

/-- It keeps the promise. -/
theorem extended_repeats : extended.Repeats where
  begins {text} htext := by
    have hlast : text.getLast? ≠ some '$' := by
      intro h
      rcases htext.1 '$' (List.mem_of_getLast? h) (by simp [extendedOperators]) with h | h
      · exact absurd h (by decide)
      · exact absurd h (by decide)
    refine ⟨_, by rw [extended, if_neg hlast], fun line => ?_⟩
    simp only [List.any_eq_true, List.mem_inits, describes_iff]
  whole {text} _ := ⟨_, by simp [extended], fun line => describes_iff⟩

end Pattern
