import TurrisBuild.Lib.Shell

/-!
# The log of a failed package in the report

`generate_junit.sh` puts the end of a compile log into a CDATA section of `junit.xml`. Two
substitutions of one `sed` are to keep the section closed only by the script: the first
one breaks up every `]]>`, and the second one removes the escape characters. The shell
then makes the output of `sed` a part of its here document.
-/

namespace TurrisBuild.Junit

/-- `\x1b` -/
def esc : Char := Char.ofNat 0x1b

def nul : Char := Char.ofNat 0

/-- What ends a CDATA section. -/
def closing : List Char := [']', ']', '>']

/-- A file of lines. The last newline may be missing, then the last line is not empty. -/
structure Log where
  lines : List (List Char)
  ended : Bool
  noNewline : ∀ line ∈ lines, '\n' ∉ line
  last_ne_nil : ended = false → lines.getLast? ≠ some []

/-- `tail -n 300` -/
def lastLines (log : Log) : List (List Char) := log.lines.drop (log.lines.length - 300)

/-- `s|\]\]>|\]\] >|g` -/
def breakClosings : List Char → List Char
  | ']' :: ']' :: '>' :: line => ']' :: ']' :: ' ' :: '>' :: breakClosings line
  | c :: line => c :: breakClosings line
  | [] => []

/-- `s/\x1b//g` -/
def removeEscapes (line : List Char) : List Char := line.filter (· != esc)

/-- Both substitutions on one line. -/
def sedLine (line : List Char) : List Char := removeEscapes (breakClosings line)

/-- The output of `tail` and `sed`. -/
def sedOutput (log : Log) : List Char :=
  ['\n'].intercalate ((lastLines log).map sedLine) ++
    if log.ended && !log.lines.isEmpty then ['\n'] else []

/-- The command substitution, which also leaves out the bytes that are zero. -/
def substituted (log : Log) : List Char :=
  Shell.commandSubstitution ((sedOutput log).filter (· != nul))

/-- What the here document has between `<![CDATA[` and its own `]]>`. -/
def cdata (log : Log) : List Char := '\n' :: (substituted log ++ ['\n'])

/-- The second text is the first one with spaces in some of its `]]>`. -/
inductive Spaced : List Char → List Char → Prop
  | nil : Spaced [] []
  | keep (c : Char) {s t : List Char} : Spaced s t → Spaced (c :: s) (c :: t)
  | closing {s t : List Char} :
      Spaced s t → Spaced (']' :: ']' :: '>' :: s) (']' :: ']' :: ' ' :: '>' :: t)

/-- Nothing in the section ends it, no escape character is left, and but for these and the
spaces it is the end of the log. -/
def KeepsReport (log : Log) : Prop :=
  ¬closing <:+: cdata log ∧ esc ∉ cdata log ∧
    ∃ body, cdata log = '\n' :: (body ++ ['\n']) ∧
      Spaced (removeEscapes (['\n'].intercalate (lastLines log))) body

/-- A `]]>` with escape characters inside. -/
def SplitClosing (line : List Char) : Prop :=
  ∃ e₁ e₂ : List Char, (∀ c ∈ e₁, c = esc) ∧ (∀ c ∈ e₂, c = esc) ∧ e₁ ++ e₂ ≠ [] ∧
    ']' :: (e₁ ++ ']' :: (e₂ ++ ['>'])) <:+: line

/-- No line at the end of the log has a `]]>` with escape characters inside or a byte zero, and
the last one of several lines has something else than escape characters. -/
def SafeEnd (log : Log) : Prop :=
  (∀ line ∈ lastLines log, ¬SplitClosing line ∧ nul ∉ line) ∧
    (2 ≤ (lastLines log).length → ∃ c ∈ (lastLines log).getLast?.getD [], c ≠ esc)

/-! ### One line -/

private theorem removeEscapes_cons_esc (line : List Char) :
    removeEscapes (esc :: line) = removeEscapes line := rfl

private theorem removeEscapes_cons {c : Char} (hc : c ≠ esc) (line : List Char) :
    removeEscapes (c :: line) = c :: removeEscapes line :=
  List.filter_cons_of_pos (bne_iff_ne.mpr hc)

private theorem not_mem_removeEscapes (line : List Char) : esc ∉ removeEscapes line := by
  intro h
  have hne := (List.mem_filter.mp h).2
  exact absurd rfl (bne_iff_ne.mp hne)

private theorem removeEscapes_append (s t : List Char) :
    removeEscapes (s ++ t) = removeEscapes s ++ removeEscapes t :=
  List.filter_append s t

private theorem removeEscapes_of_all {e : List Char} (he : ∀ c ∈ e, c = esc) :
    removeEscapes e = [] := by
  refine List.filter_eq_nil_iff.mpr fun c hc => ?_
  rw [he c hc, bne_self_eq_false]
  exact Bool.false_ne_true

private theorem breakClosings_cons {c : Char} {line : List Char}
    (h : ∀ rest, c = ']' → line ≠ ']' :: '>' :: rest) :
    breakClosings (c :: line) = c :: breakClosings line := by
  rw [breakClosings.eq_2]
  rintro rest rfl rfl
  exact h rest rfl rfl

private theorem breakClosings_append {e : List Char} (he : ∀ c ∈ e, c = esc) (line : List Char) :
    breakClosings (e ++ line) = e ++ breakClosings line := by
  induction e with
  | nil => rfl
  | cons c e ih =>
    obtain ⟨hc, he'⟩ := List.forall_mem_cons.mp he
    have hne : c ≠ ']' := by
      rw [hc]
      decide
    rw [List.cons_append, breakClosings_cons fun _ h => absurd h hne, ih he', List.cons_append]

/-- Spaces are only put into a `]]>`. -/
theorem spaced_sedLine (line : List Char) : Spaced (removeEscapes line) (sedLine line) := by
  unfold sedLine
  induction line using breakClosings.induct with
  | case1 line ih => exact .closing ih
  | case2 c line hclosing ih =>
    rw [breakClosings.eq_2 c line hclosing]
    by_cases hc : c = esc
    · rw [hc]
      exact ih
    · rw [removeEscapes_cons hc, removeEscapes_cons hc]
      exact .keep c ih
  | case3 => exact .nil

/-- The first character that is left of a line, and what follows it. -/
private theorem exists_of_sedLine_cons {line : List Char} {c : Char} {t : List Char}
    (h : sedLine line = c :: t) :
    ∃ e line', (∀ c ∈ e, c = esc) ∧ line = e ++ c :: line' ∧
      (t = sedLine line' ∨ t.head? = some ']') := by
  unfold sedLine at h ⊢
  induction line using breakClosings.induct with
  | case1 line ih =>
    obtain ⟨rfl, rfl⟩ := List.cons.inj h
    exact ⟨[], ']' :: '>' :: line, by simp, rfl, .inr rfl⟩
  | case2 d line hclosing ih =>
    rw [breakClosings.eq_2 d line hclosing] at h
    by_cases hd : d = esc
    · rw [hd, removeEscapes_cons_esc] at h
      obtain ⟨e, line', he, rfl, ht⟩ := ih h
      exact ⟨d :: e, line', List.forall_mem_cons.mpr ⟨hd, he⟩, rfl, ht⟩
    · rw [removeEscapes_cons hd] at h
      obtain ⟨rfl, rfl⟩ := List.cons.inj h
      exact ⟨[], line, by simp, rfl, .inl rfl⟩
  | case3 => cases h

/-- A further character in front keeps the closing mark split. -/
theorem SplitClosing.cons {line : List Char} (h : SplitClosing line) (c : Char) :
    SplitClosing (c :: line) := by
  obtain ⟨e₁, e₂, he₁, he₂, hne, hinfix⟩ := h
  exact ⟨e₁, e₂, he₁, he₂, hne, List.infix_cons hinfix⟩

/-- A `]]>` in the output had escape characters inside. -/
theorem splitClosing_of_sedLine {line : List Char} (h : closing <:+: sedLine line) :
    SplitClosing line := by
  unfold sedLine at h
  induction line using breakClosings.induct with
  | case1 line ih =>
    refine (ih ?_).cons '>' |>.cons ']' |>.cons ']'
    simpa [closing, breakClosings, removeEscapes, esc, List.infix_cons_iff] using h
  | case2 c line hclosing ih =>
    rw [breakClosings.eq_2 c line hclosing] at h
    by_cases hc : c = esc
    · rw [hc, removeEscapes_cons_esc] at h
      exact (ih h).cons c
    · rw [removeEscapes_cons hc, List.infix_cons_iff] at h
      rcases h with hbegin | hrest
      · -- The three characters are found one after the other in the line.
        obtain ⟨rfl, t, ht⟩ := List.cons_prefix_cons.mp hbegin
        obtain ⟨e₁, line₁, he₁, rfl, ht₁⟩ := exists_of_sedLine_cons (Eq.symm ht)
        obtain ht₁ | ht₁ := ht₁
        · obtain ⟨e₂, line₂, he₂, rfl, -⟩ := exists_of_sedLine_cons (Eq.symm ht₁)
          refine ⟨e₁, e₂, he₁, he₂, fun hnil => ?_, [], line₂, by simp⟩
          obtain ⟨rfl, rfl⟩ := List.append_eq_nil_iff.mp hnil
          exact hclosing line₂ rfl rfl
        · cases ht₁
      · exact (ih hrest).cons c
  | case3 => exact absurd (List.infix_nil.mp h) (by decide)

private theorem eq_of_escapes_append {e s t : List Char} {c d : Char} (he : ∀ c ∈ e, c = esc)
    (hd : d ≠ esc) (h : e ++ c :: s = d :: t) : e = [] ∧ c = d ∧ s = t := by
  cases e with
  | nil => exact ⟨rfl, List.cons.inj h⟩
  | cons c' e =>
    obtain ⟨rfl, -⟩ := List.cons.inj h
    exact absurd (he c' List.mem_cons_self) hd

section Split

variable {e₁ e₂ : List Char} (he₁ : ∀ c ∈ e₁, c = esc) (he₂ : ∀ c ∈ e₂, c = esc)
  (hne : e₁ ++ e₂ ≠ [])

include he₁ he₂ hne

private theorem split_ne_closing (rest line : List Char) :
    e₁ ++ ']' :: (e₂ ++ '>' :: rest) ≠ ']' :: '>' :: line := by
  intro h
  obtain ⟨rfl, -, hrest⟩ := eq_of_escapes_append he₁ (by decide) h
  obtain ⟨rfl, -, -⟩ := eq_of_escapes_append he₂ (by decide) hrest
  exact hne rfl

private theorem closing_prefix_sedLine (rest : List Char) :
    closing <+: sedLine (']' :: (e₁ ++ ']' :: (e₂ ++ '>' :: rest))) := by
  have hne₂ : ∀ line, e₂ ++ '>' :: rest ≠ ']' :: '>' :: line := by
    intro line h
    obtain ⟨-, hchar, -⟩ := eq_of_escapes_append he₂ (by decide) h
    exact absurd hchar (by decide)
  have hbreak : breakClosings (']' :: (e₁ ++ ']' :: (e₂ ++ '>' :: rest))) =
      ']' :: (e₁ ++ ']' :: (e₂ ++ '>' :: breakClosings rest)) := by
    rw [breakClosings_cons fun line _ => split_ne_closing he₁ he₂ hne rest line,
      breakClosings_append he₁, breakClosings_cons fun line _ => hne₂ line,
      breakClosings_append he₂, breakClosings_cons fun _ h => absurd h (by decide)]
  unfold sedLine
  rw [hbreak, removeEscapes_cons (by decide), removeEscapes_append,
    removeEscapes_of_all he₁, removeEscapes_cons (by decide), removeEscapes_append,
    removeEscapes_of_all he₂, removeEscapes_cons (by decide)]
  exact ⟨removeEscapes (breakClosings rest), rfl⟩

private theorem infix_of_infix_closing {line : List Char}
    (h : ']' :: (e₁ ++ ']' :: (e₂ ++ ['>'])) <:+: ']' :: ']' :: '>' :: line) :
    ']' :: (e₁ ++ ']' :: (e₂ ++ ['>'])) <:+: line := by
  rcases List.infix_cons_iff.mp h with ⟨rest, hrest⟩ | h
  · have heq : e₁ ++ ']' :: (e₂ ++ '>' :: rest) = ']' :: '>' :: line := by simpa using hrest
    exact absurd heq (split_ne_closing he₁ he₂ hne rest line)
  rcases List.infix_cons_iff.mp h with ⟨rest, hrest⟩ | h
  · have heq : e₁ ++ ']' :: (e₂ ++ '>' :: rest) = '>' :: line := by simpa using hrest
    obtain ⟨-, hchar, -⟩ := eq_of_escapes_append he₁ (by decide) heq
    exact absurd hchar (by decide)
  rcases List.infix_cons_iff.mp h with ⟨rest, hrest⟩ | h
  · exact absurd (List.cons.inj hrest).1 (by decide)
  · exact h

end Split

/-- A `]]>` with escape characters inside is in the output without them. -/
theorem closing_infix_sedLine {line : List Char} (h : SplitClosing line) :
    closing <:+: sedLine line := by
  obtain ⟨e₁, e₂, he₁, he₂, hne, hinfix⟩ := h
  induction line using breakClosings.induct with
  | case1 line ih =>
    have hrest := ih (infix_of_infix_closing he₁ he₂ hne hinfix)
    exact List.infix_cons (List.infix_cons (List.infix_cons (List.infix_cons hrest)))
  | case2 c line hclosing ih =>
    rcases List.infix_cons_iff.mp hinfix with ⟨rest, hrest⟩ | hinfix
    · simp only [List.append_assoc, List.cons_append, List.nil_append] at hrest
      rw [← hrest]
      exact (closing_prefix_sedLine he₁ he₂ hne rest).isInfix
    · rw [sedLine, breakClosings.eq_2 c line hclosing]
      by_cases hc : c = esc
      · rw [hc]
        exact ih hinfix
      · rw [removeEscapes_cons hc]
        exact List.infix_cons (ih hinfix)
  | case3 => exact absurd (List.infix_nil.mp hinfix) (by simp)

private theorem closing_infix_sedLine_iff {line : List Char} :
    closing <:+: sedLine line ↔ SplitClosing line :=
  ⟨splitClosing_of_sedLine, closing_infix_sedLine⟩

/-! ### The whole section -/

/-- Texts that are spaced piece by piece. -/
theorem Spaced.append {s t s' t' : List Char} (h : Spaced s t) (h' : Spaced s' t') :
    Spaced (s ++ s') (t ++ t') := by
  induction h with
  | nil => exact h'
  | keep c _ ih => exact .keep c ih
  | closing _ ih => exact .closing ih

/-- Only spaces are more in the second text. -/
theorem Spaced.count_eq {s t : List Char} (h : Spaced s t) {c : Char} (hc : ' ' ≠ c) :
    t.count c = s.count c := by
  induction h with
  | nil => rfl
  | keep d _ ih => rw [List.count_cons, List.count_cons, ih]
  | closing _ ih =>
    simp only [List.count_cons, ih, beq_false_of_ne hc, Bool.false_eq_true, if_false, Nat.add_zero]

/-- Only blanks are added. -/
theorem Spaced.mem_iff {s t : List Char} (h : Spaced s t) {c : Char} (hc : ' ' ≠ c) :
    c ∈ t ↔ c ∈ s := by
  rw [← List.count_pos_iff, ← List.count_pos_iff, h.count_eq hc]

private theorem Spaced.eq_nil_iff {s t : List Char} (h : Spaced s t) : t = [] ↔ s = [] := by
  cases h <;> simp

private theorem spaced_sedLines (lines : List (List Char)) :
    Spaced (removeEscapes (['\n'].intercalate lines)) (['\n'].intercalate (lines.map sedLine)) := by
  induction lines with
  | nil => exact .nil
  | cons line lines ih =>
    cases lines with
    | nil =>
      rw [List.map_singleton, List.intercalate_singleton, List.intercalate_singleton]
      exact spaced_sedLine line
    | cons line' lines =>
      rw [List.map_cons, List.map_cons, List.intercalate_cons_cons, List.intercalate_cons_cons,
        removeEscapes_append, removeEscapes_append]
      exact ((spaced_sedLine line).append (.keep '\n' .nil)).append ih

private theorem sedLine_eq_nil_iff {line : List Char} :
    sedLine line = [] ↔ ∀ c ∈ line, c = esc := by
  rw [(spaced_sedLine line).eq_nil_iff, removeEscapes, List.filter_eq_nil_iff]
  simp

private theorem newline_notMem_sedLine {line : List Char} (h : '\n' ∉ line) :
    '\n' ∉ sedLine line := by
  rw [(spaced_sedLine line).mem_iff (by decide)]
  exact fun hmem => h (List.mem_of_mem_filter hmem)

/-! Lines joined by newlines. -/

private theorem mem_intercalate_iff {c : Char} (hc : c ≠ '\n') (lines : List (List Char)) :
    c ∈ ['\n'].intercalate lines ↔ ∃ line ∈ lines, c ∈ line := by
  induction lines with
  | nil => simp
  | cons line lines ih =>
    cases lines with
    | nil => simp
    | cons line' lines =>
      rw [List.intercalate_cons_cons, List.mem_append, List.mem_append, ih]
      simp [hc]

private theorem closing_infix_append_iff (s t : List Char) :
    closing <:+: s ++ '\n' :: t ↔ closing <:+: s ∨ closing <:+: t := by
  have hnewline : ∀ w, w <:+ closing → w ≠ [] → ¬w <+: '\n' :: t := by
    rintro (_ | ⟨c, w⟩) hsuffix hne hprefix
    · exact hne rfl
    · rw [(List.cons_prefix_cons.mp hprefix).1] at hsuffix
      exact absurd (hsuffix.subset List.mem_cons_self) (by decide)
  rw [List.infix_append_iff_ne_nil, List.infix_cons_iff]
  constructor
  · rintro (h | (h | h) | ⟨w₁, w₂, -, hne, heq, -, hprefix⟩)
    · exact .inl h
    · exact absurd h (hnewline closing (List.suffix_refl _) (by decide))
    · exact .inr h
    · exact absurd hprefix (hnewline w₂ ⟨w₁, heq.symm⟩ hne)
  · rintro (h | h)
    · exact .inl h
    · exact .inr (.inl (.inr h))

private theorem closing_infix_intercalate_iff (lines : List (List Char)) :
    closing <:+: ['\n'].intercalate lines ↔ ∃ line ∈ lines, closing <:+: line := by
  induction lines with
  | nil => simp [closing]
  | cons line lines ih =>
    cases lines with
    | nil => simp
    | cons line' lines =>
      rw [List.intercalate_cons_cons, List.append_assoc, List.singleton_append,
        closing_infix_append_iff, ih]
      simp

private theorem getLast?_intercalate_iff {lines : List (List Char)}
    (h : ∀ line ∈ lines, '\n' ∉ line) :
    (['\n'].intercalate lines).getLast? = some '\n' ↔
      2 ≤ lines.length ∧ lines.getLast? = some [] := by
  induction lines with
  | nil => simp
  | cons line lines ih =>
    obtain ⟨hline, hlines⟩ := List.forall_mem_cons.mp h
    cases lines with
    | nil =>
      rw [List.intercalate_singleton]
      refine iff_of_false (fun hlast => hline (List.mem_of_getLast? hlast)) ?_
      simp
    | cons line' lines =>
      have hlast : (line ++ ['\n'] ++ ['\n'].intercalate (line' :: lines)).getLast? = some '\n' ↔
          ['\n'].intercalate (line' :: lines) = [] ∨
            (['\n'].intercalate (line' :: lines)).getLast? = some '\n' := by
        rw [List.append_assoc, List.singleton_append, List.getLast?_append_cons,
          List.getLast?_cons]
        cases hend : (['\n'].intercalate (line' :: lines)).getLast? with
        | none => simpa using List.getLast?_eq_none_iff.mp hend
        | some c =>
          have hne : ['\n'].intercalate (line' :: lines) ≠ [] := by
            rintro heq
            rw [heq] at hend
            cases hend
          simp [hne]
      rw [List.intercalate_cons_cons, hlast, ih hlines, List.getLast?_cons_cons]
      cases lines with
      | nil => simp
      | cons line'' lines => simp [List.intercalate_cons_cons]

/-! ### The section and the end of the log -/

variable {log : Log}

/-- The last lines as `sed` leaves them. -/
private def sedText (log : Log) : List Char := ['\n'].intercalate ((lastLines log).map sedLine)

private theorem spaced_sedText (log : Log) :
    Spaced (removeEscapes (['\n'].intercalate (lastLines log))) (sedText log) :=
  spaced_sedLines (lastLines log)

private theorem substituted_eq (log : Log) :
    substituted log = ((sedText log).filter (· != nul)).rdropWhile (· == '\n') := by
  rw [substituted, Shell.commandSubstitution, sedOutput, ← sedText, List.filter_append]
  split
  · exact List.rdropWhile_concat_pos _ _ _ rfl
  · rw [List.filter_nil, List.append_nil]

private theorem esc_notMem_substituted (log : Log) : esc ∉ substituted log := by
  intro h
  rw [substituted_eq] at h
  have hmem := List.mem_of_mem_filter ((List.rdropWhile_prefix _ _).subset h)
  rw [(spaced_sedText log).mem_iff (by decide)] at hmem
  exact not_mem_removeEscapes _ hmem

private theorem nul_notMem_substituted (log : Log) : nul ∉ substituted log := by
  intro h
  rw [substituted_eq] at h
  have hne := List.of_mem_filter ((List.rdropWhile_prefix _ _).subset h)
  exact absurd rfl (bne_iff_ne.mp hne)

private theorem filter_nul {s : List Char} (h : nul ∉ s) : s.filter (· != nul) = s := by
  refine List.filter_eq_self.mpr fun c hc => bne_iff_ne.mpr ?_
  rintro rfl
  exact h hc

private theorem rdropWhile_newline_eq_self_iff {s : List Char} :
    s.rdropWhile (· == '\n') = s ↔ s.getLast? ≠ some '\n' := by
  rw [List.rdropWhile_eq_self_iff]
  rcases s.eq_nil_or_concat' with rfl | ⟨s, c, rfl⟩
  · simp
  · simp

private theorem substituted_eq_sedText_iff :
    substituted log = sedText log ↔ nul ∉ sedText log ∧ (sedText log).getLast? ≠ some '\n' := by
  have hnul : substituted log = sedText log → nul ∉ sedText log := by
    intro h hmem
    exact nul_notMem_substituted log (by rwa [h])
  constructor
  · intro h
    refine ⟨hnul h, ?_⟩
    have hnul := hnul h
    rw [substituted_eq, filter_nul hnul] at h
    exact rdropWhile_newline_eq_self_iff.mp h
  · rintro ⟨hnot, hlast⟩
    rw [substituted_eq, filter_nul hnot]
    exact rdropWhile_newline_eq_self_iff.mpr hlast

/-- What is lost to the shell cannot be made up for by spaces. -/
private theorem spaced_substituted_iff :
    Spaced (removeEscapes (['\n'].intercalate (lastLines log))) (substituted log) ↔
      substituted log = sedText log := by
  constructor
  · intro h
    have hcount : ∀ c, ' ' ≠ c → (substituted log).count c = (sedText log).count c := by
      intro c hc
      rw [h.count_eq hc, (spaced_sedText log).count_eq hc]
    have hnul : nul ∉ sedText log := by
      rw [← List.count_eq_zero, ← hcount nul (by decide), List.count_eq_zero]
      exact nul_notMem_substituted log
    have happend : substituted log ++ (sedText log).rtakeWhile (· == '\n') = sedText log := by
      rw [substituted_eq, filter_nul hnul]
      exact List.rdropWhile_append_rtakeWhile
    have hnewlines : (sedText log).rtakeWhile (· == '\n') = [] := by
      have htotal := congrArg (List.count '\n') happend
      rw [List.count_append, hcount '\n' (by decide)] at htotal
      by_contra hne
      obtain ⟨c, hc⟩ := List.exists_mem_of_ne_nil _ hne
      have hnewline := List.mem_rtakeWhile_imp (p := (· == '\n')) hc
      rw [beq_iff_eq.mp hnewline] at hc
      have hpos := List.count_pos_iff.mpr hc
      omega
    rw [hnewlines, List.append_nil] at happend
    exact happend
  · intro h
    rw [h]
    exact spaced_sedText log

private theorem nul_mem_sedText_iff :
    nul ∈ sedText log ↔ ∃ line ∈ lastLines log, nul ∈ line := by
  rw [(spaced_sedText log).mem_iff (by decide), removeEscapes, List.mem_filter,
    mem_intercalate_iff (by decide)]
  simp [nul, esc]

private theorem noNewline_lastLines : ∀ line ∈ (lastLines log).map sedLine, '\n' ∉ line := by
  intro line hline
  obtain ⟨line, hmem, rfl⟩ := List.mem_map.mp hline
  exact newline_notMem_sedLine (log.noNewline line (List.mem_of_mem_drop hmem))

private theorem getLast?_sedText_iff :
    (sedText log).getLast? = some '\n' ↔
      2 ≤ (lastLines log).length ∧ ∀ c ∈ (lastLines log).getLast?.getD [], c = esc := by
  rw [sedText, getLast?_intercalate_iff noNewline_lastLines, List.length_map, List.getLast?_map]
  refine and_congr_right fun htwo => ?_
  cases hlast : (lastLines log).getLast? with
  | none =>
    rw [List.getLast?_eq_none_iff.mp hlast] at htwo
    simp at htwo
  | some line => simpa using sedLine_eq_nil_iff

private theorem closing_infix_sedText_iff :
    closing <:+: sedText log ↔ ∃ line ∈ lastLines log, SplitClosing line := by
  rw [sedText, closing_infix_intercalate_iff]
  simp [closing_infix_sedLine_iff]

private theorem cdata_closing_iff : closing <:+: cdata log ↔ closing <:+: substituted log := by
  rw [cdata, ← List.nil_append ('\n' :: _), closing_infix_append_iff, closing_infix_append_iff]
  simp [closing]

/-- **The log cannot break the report.** This holds exactly when the end of the log has no
`]]>` with escape characters inside, no byte zero and no empty line last. -/
theorem keepsReport_iff (log : Log) : KeepsReport log ↔ SafeEnd log := by
  have hcdata :
      KeepsReport log ↔ ¬closing <:+: substituted log ∧ substituted log = sedText log := by
    rw [KeepsReport, cdata_closing_iff, ← spaced_substituted_iff]
    refine and_congr_right fun _ => ⟨?_, fun h => ⟨?_, substituted log, rfl, h⟩⟩
    · rintro ⟨-, body, hbody, hspaced⟩
      rwa [List.append_cancel_right (List.cons.inj hbody).2]
    · rw [cdata]
      simpa [esc] using esc_notMem_substituted log
  rw [hcdata, SafeEnd, forall₂_and, and_assoc]
  constructor
  · rintro ⟨hclosing, heq⟩
    obtain ⟨hnul, hlast⟩ := substituted_eq_sedText_iff.mp heq
    rw [heq, closing_infix_sedText_iff] at hclosing
    rw [nul_mem_sedText_iff] at hnul
    rw [Ne, getLast?_sedText_iff] at hlast
    push Not at hclosing hnul hlast
    exact ⟨hclosing, hnul, hlast⟩
  · rintro ⟨hclosing, hnul, hlast⟩
    have heq : substituted log = sedText log := by
      rw [substituted_eq_sedText_iff, nul_mem_sedText_iff, Ne, getLast?_sedText_iff]
      push Not
      exact ⟨hnul, hlast⟩
    rw [heq, closing_infix_sedText_iff]
    push Not
    exact ⟨hclosing, rfl⟩

/-- A log of one line, in which the second substitution makes a `]]>`. -/
private def splitLog : Log where
  lines := [[']', esc, ']', '>']]
  ended := true
  noNewline := by decide
  last_ne_nil := by decide

/-- The section of this log ends inside of it. -/
theorem closing_after_escapes :
    cdata splitLog = ['\n', ']', ']', '>', '\n'] ∧ ¬KeepsReport splitLog := by
  have hcdata : cdata splitLog = ['\n', ']', ']', '>', '\n'] := by decide
  refine ⟨hcdata, fun h => h.1 ?_⟩
  rw [hcdata]
  exact ⟨['\n'], ['\n'], rfl⟩

end TurrisBuild.Junit
