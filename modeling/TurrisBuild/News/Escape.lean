import Mathlib.Data.Bool.AllAny
import TurrisBuild.News.Postinst

/-!
# Escaped news

What escaping the backslash, the dollar sign and the double quote means to each
reader of the text: `make` sees no continued line and the same directives, and
the shell undoes it.
-/

namespace TurrisBuild.News

/-- The characters that are escaped. -/
def specials : List Char := ['\\', '$', '"']

/-- An empty text has nothing to escape. -/
@[simp] theorem escape_nil : escape [] = [] := rfl

/-- The three substitutions together put a backslash before a special character. -/
theorem escape_cons (c : Char) (text : List Char) :
    escape (c :: text) = (if c ∈ specials then ['\\', c] else [c]) ++ escape text := by
  have happend (d : Char) (replacement xs ys : List Char) :
      substitute d replacement (xs ++ ys) =
        substitute d replacement xs ++ substitute d replacement ys := List.flatMap_append
  have hcons : c :: text = [c] ++ text := rfl
  rw [hcons, escape, happend, happend, happend]
  congr 1
  by_cases hb : c = '\\'
  · subst hb
    rfl
  by_cases hd : c = '$'
  · subst hd
    rfl
  by_cases hq : c = '"'
  · subst hq
    rfl
  simp [substitute, specials, hb, hd, hq]

private theorem escape_cons_of_mem {c : Char} (hc : c ∈ specials) (text : List Char) :
    escape (c :: text) = '\\' :: c :: escape text := by
  rw [escape_cons, if_pos hc]
  rfl

/-- An ordinary character is left as it is. -/
theorem escape_cons_of_notMem {c : Char} (hc : c ∉ specials) (text : List Char) :
    escape (c :: text) = c :: escape text := by
  rw [escape_cons, if_neg hc]
  rfl

/-- A text is escaped piece by piece. -/
@[simp] theorem escape_append (text rest : List Char) :
    escape (text ++ rest) = escape text ++ escape rest := by
  induction text with
  | nil => rfl
  | cons c text ih => simp [escape_cons, ih]

/-- Escaping adds nothing but backslashes. -/
theorem count_escape {c : Char} (hc : c ≠ '\\') (text : List Char) :
    (escape text).count c = text.count c := by
  induction text with
  | nil => rfl
  | cons d text ih =>
    by_cases hd : d ∈ specials
    · simp [escape_cons_of_mem hd, List.count_cons, ih, hc.symm]
    · simp [escape_cons_of_notMem hd, List.count_cons, ih]

/-- Only backslashes are added. -/
theorem mem_escape {c : Char} (hc : c ≠ '\\') {text : List Char} :
    c ∈ escape text ↔ c ∈ text := by
  rw [← List.count_pos_iff, count_escape hc, List.count_pos_iff]

/-- The last character is escaped before and not behind it. -/
theorem getLast?_escape (text : List Char) : (escape text).getLast? = text.getLast? := by
  induction text using List.reverseRecOn with
  | nil => rfl
  | append_singleton text c _ =>
    rw [escape_append]
    by_cases hc : c ∈ specials
    · simp [escape_cons_of_mem hc]
    · simp [escape_cons_of_notMem hc]

private theorem head?_escape (text : List Char) : (escape text).head? ≠ some '$' := by
  cases text with
  | nil => simp
  | cons c text =>
    by_cases hc : c ∈ specials
    · simp [escape_cons_of_mem hc]
    · have hne : c ≠ '$' := fun h => hc (by simp [h, specials])
      simpa [escape_cons_of_notMem hc] using hne

/-! ### Reading by make -/

/-- No two dollar signs stand together in escaped text. -/
theorem lone_escape (text : List Char) {rest : List Char} (hrest : Make.lone rest = true)
    (hhead : rest.head? ≠ some '$') : Make.lone (escape text ++ rest) = true := by
  induction text with
  | nil => simpa using hrest
  | cons c text ih =>
    by_cases hc : c ∈ specials
    · rw [escape_cons_of_mem hc, List.cons_append, Make.lone_cons (by decide), List.cons_append]
      by_cases hd : c = '$'
      · -- The character behind the dollar sign is escaped itself or ends the text.
        subst hd
        cases hnext : escape text ++ rest with
        | nil => rfl
        | cons d next =>
          have hne : d ≠ '$' := by
            rintro rfl
            have hsome : (escape text ++ rest).head? = some '$' := by simp [hnext]
            rw [List.head?_append] at hsome
            cases htext : (escape text).head? with
            | none => simp [htext, hhead] at hsome
            | some e => exact head?_escape text (by simpa [htext] using hsome)
          rw [Make.lone]
          · rwa [← hnext]
          · simpa using hne
      · rwa [Make.lone_cons hd]
    · have hd : c ≠ '$' := fun h => hc (by simp [h, specials])
      rwa [escape_cons_of_notMem hc, List.cons_append, Make.lone_cons hd]

/-- Escaped text does not continue a line. -/
theorem continues_escape {head : List Char} (h : Make.continues head = false)
    (text : List Char) : Make.continues (head ++ escape text) = false := by
  induction text using List.reverseRecOn with
  | nil => simpa using h
  | append_singleton text c ih =>
    rw [escape_append, ← List.append_assoc]
    by_cases hb : c = '\\'
    · subst hb
      have htwo : escape ['\\'] = ['\\', '\\'] := rfl
      simp only [Make.continues, htwo, List.reverse_append, List.reverse_cons, List.reverse_nil,
        List.nil_append, List.cons_append, List.takeWhile_cons, beq_self_eq_true, if_true,
        List.length_cons, beq_eq_false_iff_ne] at ih ⊢
      omega
    · by_cases hc : c ∈ specials
      · simp [escape_cons_of_mem hc, Make.continues, hb]
      · simp [escape_cons_of_notMem hc, Make.continues, hb]

/-- A comment sign is never quoted, so that none is left of a comment, unless a
reference comes first. -/
theorem removeComments_escape {n : ℕ} (hn : n % 2 = 0) (text : List Char) {rest : List Char}
    (hrest : rest = [] ∨ rest = ['"'])
    (h : '$' ∉ Make.removeComments n (escape text ++ rest)) :
    '#' ∉ Make.removeComments n (escape text ++ rest) := by
  induction text generalizing n with
  | nil =>
    have hnone : '#' ∉ rest := by rcases hrest with rfl | rfl <;> simp
    rw [escape_nil, List.nil_append, Make.removeComments_eq hnone]
    simpa using hnone
  | cons c text ih =>
    by_cases hb : c = '\\'
    · subst hb
      rw [escape_cons_of_mem (by decide)] at h ⊢
      exact ih (by omega) h
    by_cases hd : c = '$'
    · subst hd
      rw [escape_cons_of_mem (by decide)] at h
      exact absurd (Make.dollar_mem_removeComments (n + 1) (escape text ++ rest)) h
    by_cases hc : c = '#'
    · subst hc
      rw [escape_cons_of_notMem (by decide), List.cons_append, Make.removeComments, if_pos hn]
      simp
    · have hplain : c ∉ ['\\', '#', '$'] := by simp [hb, hd, hc]
      by_cases hq : c = '"'
      · subst hq
        rw [escape_cons_of_mem (by decide), List.cons_append, List.cons_append,
          Make.removeComments, Make.removeComments_cons (by decide)] at h ⊢
        have hnone : '$' ∉ Make.removeComments 0 (escape text ++ rest) :=
          fun hmem => h (by simp [hmem])
        simp [ih (Nat.zero_mod 2) hnone]
      · have hspecial : c ∉ specials := by simp [specials, hb, hd, hq]
        rw [escape_cons_of_notMem hspecial, List.cons_append,
          Make.removeComments_cons hplain] at h ⊢
        have hnone : '$' ∉ Make.removeComments 0 (escape text ++ rest) :=
          fun hmem => h (by simp [hmem])
        simp [ih (Nat.zero_mod 2) hnone, Ne.symm hc]

private theorem startsWord_escape {word : List Char} (hword : ∀ c ∈ word, c ∉ specials)
    (text rest : List Char) :
    Make.startsWord word (escape text ++ rest) = Make.startsWord word (text ++ rest) := by
  induction word generalizing text with
  | nil =>
    cases text with
    | nil => rfl
    | cons c text =>
      by_cases hc : c ∈ specials
      · rw [escape_cons_of_mem hc]
        simp only [specials, List.mem_cons, List.not_mem_nil, or_false] at hc
        rcases hc with rfl | rfl | rfl <;> rfl
      · rw [escape_cons_of_notMem hc]
        rfl
  | cons w word ih =>
    cases text with
    | nil => rfl
    | cons c text =>
      by_cases hc : c ∈ specials
      · have hw := hword w List.mem_cons_self
        have hb : (w == '\\') = false := beq_false_of_ne fun h => hw (by simp [h, specials])
        have hne : (w == c) = false := beq_false_of_ne fun h => hw (h ▸ hc)
        simp [escape_cons_of_mem hc, Make.startsWord, hb, hne]
      · simp [escape_cons_of_notMem hc, Make.startsWord,
          ih (fun d hd => hword d (List.mem_cons_of_mem _ hd))]

private theorem startsWord_dropWhile_escape {word : List Char} (hword : ∀ c ∈ word, c ∉ specials)
    (text rest : List Char) :
    Make.startsWord word ((escape text ++ rest).dropWhile Make.isSpace) =
      Make.startsWord word ((text ++ rest).dropWhile Make.isSpace) := by
  have hspaces : ∀ c ∈ specials, Make.isSpace c = false :=
    List.all_iff_forall_prop.mp (by decide)
  induction text with
  | nil => rfl
  | cons c text ih =>
    cases hspace : Make.isSpace c with
    | true =>
      have hc : c ∉ specials := fun h => by simp [hspaces c h] at hspace
      simpa [escape_cons_of_notMem hc, hspace] using ih
    | false =>
      have hkept : (escape (c :: text) ++ rest).dropWhile Make.isSpace =
          escape (c :: text) ++ rest := by
        by_cases hc : c ∈ specials
        · simp [escape_cons_of_mem hc, hspaces '\\' (by decide)]
        · simp [escape_cons_of_notMem hc, hspace]
      rw [hkept, startsWord_escape hword, List.cons_append, List.dropWhile_cons_of_neg]
      simp [hspace]

/-- Escaping does not change what a line means to `make`. -/
theorem directive_escape (text rest : List Char) :
    Make.directive (escape text ++ rest) = Make.directive (text ++ rest) := by
  have hhead : (escape text ++ rest).head? = some '\t' ↔ (text ++ rest).head? = some '\t' := by
    cases text with
    | nil => rfl
    | cons c text =>
      by_cases hc : c ∈ specials
      · have hne : c ≠ '\t' := by
          rintro rfl
          simp [specials] at hc
        simp [escape_cons_of_mem hc, hne]
      · simp [escape_cons_of_notMem hc]
  have hdefine : ∀ c ∈ ['d', 'e', 'f', 'i', 'n', 'e'], c ∉ specials :=
    List.all_iff_forall_prop.mp (by decide)
  have hendef : ∀ c ∈ ['e', 'n', 'd', 'e', 'f'], c ∉ specials :=
    List.all_iff_forall_prop.mp (by decide)
  simp only [Make.directive, hhead, startsWord_dropWhile_escape hdefine,
    startsWord_dropWhile_escape hendef]

/-! ### Reading by the shell -/

/-- Between double quotes the escaped text is the text again, unless it has a back
quote. -/
theorem doubleQuoted_escape (text rest : List Char) :
    Shell.doubleQuoted (escape text ++ '"' :: rest) =
      if '`' ∈ text then none else some (text, rest) := by
  induction text with
  | nil => rfl
  | cons c text ih =>
    by_cases hc : c ∈ specials
    · have hescapable : ∀ c ∈ specials, c ∈ Shell.escapable :=
        List.all_iff_forall_prop.mp (by decide)
      have hne : '`' ≠ c := by
        rintro rfl
        simp [specials] at hc
      rw [escape_cons_of_mem hc, List.cons_append, List.cons_append,
        Shell.doubleQuoted_backslash_cons (hescapable c hc), ih]
      by_cases hmem : '`' ∈ text <;> simp [hmem, hne]
    · rw [escape_cons_of_notMem hc, List.cons_append]
      by_cases hb : c = '`'
      · subst hb
        simp [Shell.doubleQuoted]
      · have hplain : c ∉ Shell.escapable := by
          simp only [specials, Shell.escapable, List.mem_cons, List.not_mem_nil, or_false,
            not_or] at hc ⊢
          exact ⟨hc.2.1, hb, hc.2.2, hc.1⟩
        rw [Shell.doubleQuoted_cons hplain, ih]
        by_cases hmem : '`' ∈ text <;> simp [hmem, Ne.symm hb]

end TurrisBuild.News
