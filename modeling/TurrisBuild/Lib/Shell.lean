import Mathlib.Data.List.DropRight

/-!
# Quoting of the shell

The rules for text between double quotes, what `echo` makes of its argument, and
what a command substitution leaves of an output.
-/

namespace Shell

/-- The output of a command without its last newlines. -/
def commandSubstitution (output : List Char) : List Char := output.rdropWhile (· == '\n')

/-- The arguments that `echo` takes for options. -/
def isEchoOption : List Char → Bool
  | '-' :: letters => !letters.isEmpty && letters.all (· ∈ ['n', 'e', 'E'])
  | _ => false

/-- The output of `echo` with a single argument. -/
def echo (s : List Char) : List Char :=
  if isEchoOption s then if 'n' ∈ s then [] else ['\n'] else s ++ ['\n']

/-- What a command substitution gets from `echo`. -/
def printed (s : List Char) : List Char := commandSubstitution (echo s)

/-- The text comes back from `echo` as it is. -/
def PrintsItself (s : List Char) : Prop := isEchoOption s = false ∧ s.getLast? ≠ some '\n'

instance (s : List Char) : Decidable (PrintsItself s) := inferInstanceAs (Decidable (_ ∧ _))

/-- An option prints nothing, and other text loses its last newlines. -/
theorem printed_eq (s : List Char) :
    printed s = if isEchoOption s then [] else s.rdropWhile (· == '\n') := by
  unfold printed echo commandSubstitution
  split
  · split <;> rfl
  · exact List.rdropWhile_concat_pos _ _ _ rfl

/-- What is printed is a beginning of the text. -/
theorem printed_prefix_text (s : List Char) : printed s <+: s := by
  rw [printed_eq]
  split
  · exact List.nil_prefix
  · exact List.rdropWhile_prefix _ _

/-- When a text is printed as it is. -/
theorem printed_eq_self_iff {s : List Char} : printed s = s ↔ PrintsItself s := by
  unfold PrintsItself
  rw [printed_eq]
  cases hoption : isEchoOption s with
  | true =>
    have hne : s ≠ [] := by
      rintro rfl
      cases hoption
    simpa using hne.symm
  | false =>
    rw [if_neg Bool.false_ne_true, List.rdropWhile_eq_self_iff]
    rcases s.eq_nil_or_concat' with rfl | ⟨l, c, rfl⟩
    · simp
    · simp

private theorem rdropWhile_append_cons {p : Char → Bool} {c : Char} (hc : p c = false)
    (s t : List Char) : (s ++ c :: t).rdropWhile p = s ++ c :: t.rdropWhile p := by
  induction t using List.reverseRecOn with
  | nil => rw [List.rdropWhile_concat_neg _ _ _ (by simp [hc]), List.rdropWhile_nil]
  | append_singleton t d ih =>
    have hassoc : s ++ c :: (t ++ [d]) = (s ++ c :: t) ++ [d] := by simp
    rw [hassoc, List.rdropWhile_concat, List.rdropWhile_concat]
    split
    · exact ih
    · exact hassoc.symm

/-- Text with a character that no option has keeps what is in front of it. -/
theorem printed_append_cons {c : Char} (hc : c ∉ ['-', 'n', 'e', 'E', '\n']) (s t : List Char) :
    printed (s ++ c :: t) = s ++ c :: t.rdropWhile (· == '\n') := by
  simp only [List.mem_cons, List.not_mem_nil, or_false, not_or] at hc
  have hoption : isEchoOption (s ++ c :: t) = false := by
    cases s with
    | nil => simp [isEchoOption, hc.1]
    | cons d s =>
      unfold isEchoOption
      split
      next heq =>
        obtain ⟨-, rfl⟩ := List.cons.inj heq
        simp [hc]
      next => rfl
  rw [printed_eq, hoption, if_neg Bool.false_ne_true]
  exact rdropWhile_append_cons (by simpa using hc.2.2.2.2) s t

/-- The characters that a backslash quotes between double quotes. -/
def escapable : List Char := ['$', '`', '"', '\\']

/-- The text up to a closing double quote, without its quoting, and what follows
the quote. A text that is not closed or that holds an expansion gives nothing. -/
def doubleQuoted : List Char → Option (List Char × List Char)
  | [] => none
  | '"' :: text => some ([], text)
  | '$' :: _ => none
  | '`' :: _ => none
  | '\\' :: '\n' :: text => doubleQuoted text
  | '\\' :: c :: text =>
    (doubleQuoted text).map fun out =>
      (if c ∈ escapable then c :: out.1 else '\\' :: c :: out.1, out.2)
  | c :: text => (doubleQuoted text).map fun out => (c :: out.1, out.2)

/-- A quoted character stands for itself. -/
theorem doubleQuoted_backslash_cons {c : Char} (hc : c ∈ escapable) (text : List Char) :
    doubleQuoted ('\\' :: c :: text) = (doubleQuoted text).map fun out => (c :: out.1, out.2) := by
  rw [doubleQuoted]
  · simp [hc]
  · rintro rfl
    simp [escapable] at hc

/-- So does a character that needs no quoting. -/
theorem doubleQuoted_cons {c : Char} (hc : c ∉ escapable) (text : List Char) :
    doubleQuoted (c :: text) = (doubleQuoted text).map fun out => (c :: out.1, out.2) := by
  rw [doubleQuoted]
  all_goals
    intros
    subst_vars
    simp [escapable] at hc

/-- No character comes out of a quoted text that was not in it. -/
theorem count_doubleQuoted_le {text : List Char} {out : List Char × List Char}
    (h : doubleQuoted text = some out) (c : Char) :
    out.1.count c + out.2.count c ≤ text.count c := by
  fun_induction doubleQuoted text generalizing out with
  | case1 => simp at h
  | case2 text =>
    obtain rfl := Option.some.inj h
    simp [List.count_cons]
  | case3 => simp at h
  | case4 => simp at h
  | case5 text ih =>
    have := ih h
    simp only [List.count_cons]
    omega
  | case6 d text _ ih =>
    obtain ⟨rest, hrest, rfl⟩ := Option.map_eq_some_iff.mp h
    have := ih hrest
    simp only [List.count_cons]
    split <;> simp only [List.count_cons] <;> omega
  | case7 d text _ _ _ _ _ ih =>
    obtain ⟨rest, hrest, rfl⟩ := Option.map_eq_some_iff.mp h
    have := ih hrest
    simp only [List.count_cons]
    omega

end Shell
