import Mathlib.Data.List.Induction

/-!
# Multi-line variables of `make`

How `make` reads the body of a `define` directive and what one expansion of such a
body is. Continued lines and references are recognised and not followed further.
-/

namespace Make

/-- A line of a makefile, without its newline. -/
abbrev Line := List Char

/-- A carriage return before the newline is dropped. -/
def dropCr (line : Line) : Line :=
  if line.getLast? = some '\r' then line.dropLast else line

/-- An odd number of backslashes at its end continues a line. -/
def continues (line : Line) : Bool :=
  (line.reverse.takeWhile (· == '\\')).length % 2 == 1

/-- The lines of a text that ends in a newline, unless one of them is continued. -/
def readLines (text : List Char) : Option (List Line) :=
  let lines := (text.splitOn '\n').dropLast.map dropCr
  if lines.any continues then none else some lines

/-- `isspace` -/
def isSpace (c : Char) : Bool := [' ', '\t', '\n', '\x0b', '\x0c', '\r'].contains c

/-- The text begins with the word, and a blank or nothing follows. -/
def startsWord : List Char → List Char → Bool
  | [], [] => true
  | [], c :: _ => c == ' ' || c == '\t'
  | _ :: _, [] => false
  | w :: word, c :: text => w == c && startsWord word text

/-- What a line in the body of a `define` means to its reader. -/
inductive Directive
  | define
  | endef
  | other
  deriving DecidableEq

/-- A line that begins with a tab is not looked at. -/
def directive (line : Line) : Directive :=
  if line.head? = some '\t' then .other
  else if startsWord ['d', 'e', 'f', 'i', 'n', 'e'] (line.dropWhile isSpace) then .define
  else if startsWord ['e', 'n', 'd', 'e', 'f'] (line.dropWhile isSpace) then .endef
  else .other

/-- A comment is cut off, with the given number of backslashes before the text.
They quote a comment sign and are then halved. The text behind a reference is
left as it is. -/
def removeComments : ℕ → List Char → List Char
  | n, [] => List.replicate n '\\'
  | n, '\\' :: text => removeComments (n + 1) text
  | n, '#' :: text =>
    if n % 2 = 0 then List.replicate (n / 2) '\\'
    else List.replicate (n / 2) '\\' ++ '#' :: removeComments 0 text
  | n, '$' :: '$' :: text => List.replicate n '\\' ++ '$' :: '$' :: removeComments 0 text
  | n, '$' :: text => List.replicate n '\\' ++ '$' :: text
  | n, c :: text => List.replicate n '\\' ++ c :: removeComments 0 text

/-- What a line does to the body of a `define` that is open at the given level:
the next level and the line that is kept, unless the body is closed. An inner
`endef` loses its comment. -/
def readLine (level : ℕ) (line : Line) : Option (ℕ × Line) :=
  match directive line with
  | .define => some (level + 1, line)
  | .endef => if level = 1 then none else some (level - 1, removeComments 0 line)
  | .other => some (level, line)

/-- The body of a `define` that is open at the given level. -/
def readDefine : ℕ → List Line → Option (List Line)
  | _, [] => none
  | level, line :: lines =>
    match readLine level line with
    | none => some []
    | some (next, kept) => (readDefine next lines).map (kept :: ·)

/-- One expansion. A text with a reference has none of its own. -/
def expandOnce : List Char → Option (List Char)
  | [] => some []
  | '$' :: '$' :: text => (expandOnce text).map ('$' :: ·)
  | ['$'] => some ['$']
  | '$' :: _ :: _ => none
  | c :: text => (expandOnce text).map (c :: ·)

/-- What is kept of the lines of a body and the level that is reached, unless the
body is closed among them. -/
def readInner : ℕ → List Line → Option (ℕ × List Line)
  | level, [] => some (level, [])
  | level, line :: lines =>
    match readLine level line with
    | none => none
    | some (next, kept) => (readInner next lines).map fun out => (out.1, kept :: out.2)

/-- The lines close what they open and nothing else, and no comment is cut. -/
def Balanced : ℕ → List Line → Prop
  | level, [] => level = 1
  | level, line :: lines =>
    match directive line with
    | .define => Balanced (level + 1) lines
    | .endef => 1 < level ∧ '#' ∉ line ∧ Balanced (level - 1) lines
    | .other => Balanced level lines

/-- No dollar sign follows another one. -/
def lone : List Char → Bool
  | '$' :: '$' :: _ => false
  | _ :: text => lone text
  | [] => true

/-! ### Carriage returns -/

/-- A carriage return is dropped from the end of what is appended. -/
theorem dropCr_append {head : List Char} (h : head.getLast? ≠ some '\r') (line : Line) :
    dropCr (head ++ line) = head ++ dropCr line := by
  induction line using List.reverseRecOn with
  | nil => simp [dropCr, h]
  | append_singleton line c _ =>
    by_cases hc : c = '\r'
    · simp [dropCr, hc, ← List.append_assoc]
    · simp [dropCr, hc, ← List.append_assoc]

/-- Dropping a carriage return adds no character. -/
theorem count_dropCr_le (c : Char) (line : Line) : (dropCr line).count c ≤ line.count c := by
  unfold dropCr
  split
  · exact (List.dropLast_sublist line).count_le c
  · exact Nat.le_refl _

/-- A line that does not end in a carriage return is kept. -/
theorem dropCr_eq {line : Line} (h : line.getLast? ≠ some '\r') : dropCr line = line := if_neg h

private theorem count_dropCr_lt {line : Line} (h : line.getLast? = some '\r') :
    (dropCr line).count '\r' < line.count '\r' := by
  obtain ⟨text, rfl⟩ := List.getLast?_eq_some_iff.mp h
  simp [dropCr]

private theorem count_flatten_dropCr_le (lines : List Line) :
    (lines.map dropCr).flatten.count '\r' ≤ lines.flatten.count '\r' := by
  induction lines with
  | nil => exact Nat.le_refl _
  | cons line lines ih =>
    simp only [List.map_cons, List.flatten_cons, List.count_append]
    exact Nat.add_le_add (count_dropCr_le _ line) ih

/-- Lines that lose no carriage return do not end in one. -/
theorem getLast?_of_count_le {lines : List Line}
    (h : lines.flatten.count '\r' ≤ (lines.map dropCr).flatten.count '\r') :
    ∀ line ∈ lines, line.getLast? ≠ some '\r' := by
  induction lines with
  | nil => simp
  | cons line lines ih =>
    have hle := count_dropCr_le '\r' line
    have hle' := count_flatten_dropCr_le lines
    simp only [List.map_cons, List.flatten_cons, List.count_append] at h
    refine List.forall_mem_cons.mpr ⟨fun hlast => ?_, ih (by omega)⟩
    have := count_dropCr_lt hlast
    omega

/-! ### Comments -/

private theorem replicate_succ_append (n : ℕ) (text : List Char) :
    List.replicate (n + 1) '\\' ++ text = List.replicate n '\\' ++ '\\' :: text := by
  rw [List.replicate_succ', List.append_assoc, List.singleton_append]

/-- A character without a meaning of its own ends the backslashes before it. -/
theorem removeComments_cons {c : Char} (hc : c ∉ ['\\', '#', '$']) (n : ℕ) (text : List Char) :
    removeComments n (c :: text) = List.replicate n '\\' ++ c :: removeComments 0 text := by
  rw [removeComments]
  all_goals simp_all

/-- The text behind a dollar sign is searched or left, and the sign stays. -/
theorem dollar_mem_removeComments (n : ℕ) (text : List Char) :
    '$' ∈ removeComments n ('$' :: text) := by
  by_cases h : ∃ rest, text = '$' :: rest
  · obtain ⟨rest, rfl⟩ := h
    simp [removeComments]
  · rw [removeComments]
    · simp
    · exact fun rest hrest => h ⟨rest, hrest⟩

/-- Without a comment sign nothing is cut. -/
theorem removeComments_eq {n : ℕ} {text : List Char} (h : '#' ∉ text) :
    removeComments n text = List.replicate n '\\' ++ text := by
  fun_induction removeComments n text with
  | case1 n => simp
  | case2 n text ih =>
    rw [ih (fun hmem => h (List.mem_cons_of_mem _ hmem)), replicate_succ_append]
  | case3 => simp at h
  | case4 => simp at h
  | case5 n text ih =>
    rw [ih (fun hmem => h (by simp [hmem]))]
    rfl
  | case6 => rfl
  | case7 n c text _ _ _ _ ih =>
    rw [ih (fun hmem => h (List.mem_cons_of_mem _ hmem))]
    rfl

/-- Cutting a comment adds no character. -/
theorem count_removeComments_le (c : Char) (n : ℕ) (text : List Char) :
    (removeComments n text).count c ≤ (List.replicate n '\\' ++ text).count c := by
  have hhalf (n : ℕ) :
      (List.replicate (n / 2) '\\').count c ≤ (List.replicate n '\\').count c := by
    simp only [List.count_replicate]
    split <;> omega
  fun_induction removeComments n text with
  | case1 n => simp
  | case2 n text ih => rwa [replicate_succ_append] at ih
  | case3 n text hn =>
    have := hhalf n
    simp only [List.count_append]
    omega
  | case4 n text hn ih =>
    have := hhalf n
    simp only [List.count_append, List.count_cons, List.replicate_zero, List.nil_append] at ih ⊢
    omega
  | case5 n text ih =>
    simp only [List.count_append, List.count_cons, List.replicate_zero, List.nil_append] at ih ⊢
    omega
  | case6 => exact Nat.le_refl _
  | case7 n d text _ _ _ _ ih =>
    simp only [List.count_append, List.count_cons, List.replicate_zero, List.nil_append] at ih ⊢
    omega

/-! ### Expansion -/

private theorem expandOnce_cons {c : Char} (hc : c ≠ '$') (text : List Char) :
    expandOnce (c :: text) = (expandOnce text).map (c :: ·) := by
  rw [expandOnce]
  all_goals simp_all

/-- A text without a dollar sign is its own expansion. -/
theorem expandOnce_append {text : List Char} (h : '$' ∉ text) (rest : List Char) :
    expandOnce (text ++ rest) = (expandOnce rest).map (text ++ ·) := by
  induction text with
  | nil => simp
  | cons c text ih =>
    have hc : c ≠ '$' := fun heq => h (by simp [heq])
    rw [List.cons_append, expandOnce_cons hc, ih fun hmem => h (List.mem_cons_of_mem _ hmem)]
    simp [Function.comp_def]

/-- A first dollar sign that no second one follows begins a reference. -/
theorem expandOnce_eq_none {text : List Char} {c : Char} (h : '$' ∉ text) (hc : c ≠ '$')
    (rest : List Char) : expandOnce (text ++ '$' :: c :: rest) = none := by
  rw [expandOnce_append h, expandOnce]
  · rfl
  · simpa using hc

/-- Other characters than the dollar sign are kept. -/
theorem count_expandOnce {text out : List Char} (h : expandOnce text = some out) {c : Char}
    (hc : c ≠ '$') : out.count c = text.count c := by
  fun_induction expandOnce text generalizing out with
  | case1 => simp_all
  | case2 text ih =>
    obtain ⟨rest, hrest, rfl⟩ := Option.map_eq_some_iff.mp h
    simp [ih hrest, hc.symm]
  | case3 => simp_all
  | case4 => simp at h
  | case5 d text _ _ _ ih =>
    obtain ⟨rest, hrest, rfl⟩ := Option.map_eq_some_iff.mp h
    simp [List.count_cons, ih hrest]

/-- Another character than a dollar sign is skipped. -/
theorem lone_cons {c : Char} (hc : c ≠ '$') (text : List Char) :
    lone (c :: text) = lone text := by
  rw [lone]
  simp_all

private theorem lone_replicate_append (n : ℕ) (text : List Char) :
    lone (List.replicate n '\\' ++ text) = lone text := by
  induction n with
  | zero => rfl
  | succ n ih => rw [List.replicate_succ, List.cons_append, lone_cons (by decide), ih]

/-- Cutting a comment brings no dollar signs together. -/
theorem lone_removeComments {n : ℕ} {text : List Char} (h : lone text = true) :
    lone (removeComments n text) = true := by
  fun_induction removeComments n text with
  | case1 n => simpa [lone] using lone_replicate_append n []
  | case2 n text ih => exact ih (by rwa [lone_cons (by decide)] at h)
  | case3 n text hn => simpa [lone] using lone_replicate_append (n / 2) []
  | case4 n text hn ih =>
    rw [lone_replicate_append, lone_cons (by decide)]
    exact ih (by rwa [lone_cons (by decide)] at h)
  | case5 n text ih => simp [lone] at h
  | case6 n text _ => rwa [lone_replicate_append]
  | case7 n c text _ _ _ hc ih =>
    rw [lone_replicate_append, lone_cons hc]
    exact ih (by rwa [lone_cons hc] at h)

/-- A line with lone dollar signs holds a reference. -/
theorem expandOnce_of_lone {line : Line} (hlone : lone line = true) (hmem : '$' ∈ line)
    (text : List Char) : expandOnce (line ++ '\n' :: text) = none := by
  induction line with
  | nil => simp at hmem
  | cons c line ih =>
    by_cases hc : c = '$'
    · subst hc
      cases line with
      | nil => rfl
      | cons d line =>
        have hd : d ≠ '$' := by
          rintro rfl
          simp [lone] at hlone
        exact expandOnce_eq_none List.not_mem_nil hd (line ++ '\n' :: text)
    · rw [List.cons_append, expandOnce_cons hc, ih (by rwa [lone_cons hc] at hlone)]
      · rfl
      · exact (List.mem_cons.mp hmem).resolve_left (Ne.symm hc)

/-- Lines that are followed by another one hold a reference if they hold lone dollar
signs. -/
theorem expandOnce_intercalate {lines : List Line} (hlone : ∀ line ∈ lines, lone line = true)
    (hmem : '$' ∈ lines.flatten) (last : Line) :
    expandOnce (['\n'].intercalate (lines ++ [last])) = none := by
  induction lines with
  | nil => simp at hmem
  | cons line lines ih =>
    obtain ⟨hline, hlines⟩ := List.forall_mem_cons.mp hlone
    rw [List.cons_append, List.intercalate_cons_of_ne_nil (by simp), List.append_assoc,
      List.singleton_append]
    by_cases hdollar : '$' ∈ line
    · exact expandOnce_of_lone hline hdollar _
    · have hrest : '$' ∈ lines.flatten := by simpa [hdollar] using hmem
      rw [expandOnce_append hdollar, expandOnce_cons (by decide), ih hlines hrest]
      rfl

/-! ### Bodies -/

/-- What a line can do to a body that stays open. -/
theorem readLine_cases {level next : ℕ} {line kept : Line}
    (h : readLine level line = some (next, kept)) :
    (directive line = .define ∧ next = level + 1 ∧ kept = line) ∨
      (directive line = .endef ∧ level ≠ 1 ∧ next = level - 1 ∧ kept = removeComments 0 line) ∨
      (directive line = .other ∧ next = level ∧ kept = line) := by
  unfold readLine at h
  cases hline : directive line with
  | define => simp_all
  | other => simp_all
  | endef =>
    by_cases hlevel : level = 1
    · simp [hline, hlevel] at h
    · simp_all

private theorem readInner_cons {level level' : ℕ} {line : Line} {lines kept : List Line}
    (h : readInner level (line :: lines) = some (level', kept)) :
    ∃ next first rest, readLine level line = some (next, first) ∧
      readInner next lines = some (level', rest) ∧ kept = first :: rest := by
  rw [readInner] at h
  split at h
  · simp at h
  next next first hline =>
    obtain ⟨out, hout, heq⟩ := Option.map_eq_some_iff.mp h
    obtain ⟨rfl, rfl⟩ := Prod.mk.inj heq
    exact ⟨next, first, out.2, hline, hout, rfl⟩

/-- The lines of a body that stays open are read before what follows them. -/
theorem readDefine_append {level level' : ℕ} {lines kept : List Line}
    (h : readInner level lines = some (level', kept)) (rest : List Line) :
    readDefine level (lines ++ rest) = (readDefine level' rest).map (kept ++ ·) := by
  induction lines generalizing level kept with
  | nil =>
    obtain ⟨rfl, rfl⟩ : level = level' ∧ [] = kept := by simpa [readInner] using h
    simp
  | cons line lines ih =>
    obtain ⟨next, first, kept, hline, hinner, rfl⟩ := readInner_cons h
    simp [readDefine, hline, ih hinner, Function.comp_def]

/-- A body that is closed among some lines has fewer lines than these. -/
theorem length_readDefine_lt {level : ℕ} {lines rest body : List Line}
    (h : readInner level lines = none) (hbody : readDefine level (lines ++ rest) = some body) :
    body.length < lines.length := by
  induction lines generalizing level body with
  | nil => simp [readInner] at h
  | cons line lines ih =>
    rw [readInner] at h
    rw [List.cons_append, readDefine] at hbody
    split at h
    next hline =>
      obtain rfl : [] = body := by simpa [hline] using hbody
      exact Nat.succ_pos _
    next next first hline =>
      simp only [hline] at hbody
      obtain ⟨out, hout, rfl⟩ := Option.map_eq_some_iff.mp hbody
      exact Nat.succ_lt_succ (ih (Option.map_eq_none_iff.mp h) hout)

/-- As many lines are kept as are read, and the level stays positive. -/
theorem length_readInner {level level' : ℕ} {lines kept : List Line} (hlevel : 1 ≤ level)
    (h : readInner level lines = some (level', kept)) :
    1 ≤ level' ∧ kept.length = lines.length := by
  induction lines generalizing level kept with
  | nil =>
    obtain ⟨rfl, rfl⟩ : level = level' ∧ [] = kept := by simpa [readInner] using h
    exact ⟨hlevel, rfl⟩
  | cons line lines ih =>
    obtain ⟨next, first, kept, hline, hinner, rfl⟩ := readInner_cons h
    have hnext : 1 ≤ next := by
      have := readLine_cases hline
      omega
    obtain ⟨hpos, hlen⟩ := ih hnext hinner
    exact ⟨hpos, by simp [hlen]⟩

/-- What holds of every line, with and without its comment, holds of every line of
a body. -/
theorem forall_readDefine {p : Line → Prop} {level : ℕ} {lines body : List Line}
    (hlines : ∀ line ∈ lines, p line ∧ p (removeComments 0 line))
    (h : readDefine level lines = some body) : ∀ line ∈ body, p line := by
  induction lines generalizing level body with
  | nil => simp [readDefine] at h
  | cons line lines ih =>
    obtain ⟨hline, hlines⟩ := List.forall_mem_cons.mp hlines
    rw [readDefine] at h
    split at h
    · obtain rfl := Option.some.inj h
      simp
    next next first hread =>
      obtain ⟨body, hbody, rfl⟩ := Option.map_eq_some_iff.mp h
      refine List.forall_mem_cons.mpr ⟨?_, ih hlines hbody⟩
      obtain ⟨-, -, rfl⟩ | ⟨-, -, -, rfl⟩ | ⟨-, -, rfl⟩ := readLine_cases hread
      · exact hline.1
      · exact hline.2
      · exact hline.1

private theorem count_readLine_le {level next : ℕ} {line kept : Line}
    (h : readLine level line = some (next, kept)) (c : Char) : kept.count c ≤ line.count c := by
  obtain ⟨-, -, rfl⟩ | ⟨-, -, -, rfl⟩ | ⟨-, -, rfl⟩ := readLine_cases h
  · exact Nat.le_refl _
  · simpa using count_removeComments_le c 0 line
  · exact Nat.le_refl _

/-- The kept lines add no character. -/
theorem count_readInner_le {level level' : ℕ} {lines kept : List Line}
    (h : readInner level lines = some (level', kept)) (c : Char) :
    kept.flatten.count c ≤ lines.flatten.count c := by
  induction lines generalizing level kept with
  | nil =>
    obtain ⟨-, rfl⟩ : level = level' ∧ [] = kept := by simpa [readInner] using h
    exact Nat.le_refl _
  | cons line lines ih =>
    obtain ⟨next, first, kept, hline, hinner, rfl⟩ := readInner_cons h
    simp only [List.flatten_cons, List.count_append]
    exact Nat.add_le_add (count_readLine_le hline c) (ih hinner)

/-- Balanced lines are kept as they are. -/
theorem readInner_of_balanced {level : ℕ} {lines : List Line} (h : Balanced level lines) :
    readInner level lines = some (1, lines) := by
  induction lines generalizing level with
  | nil =>
    obtain rfl : level = 1 := h
    rfl
  | cons line lines ih =>
    rw [Balanced] at h
    cases hline : directive line with
    | define =>
      simp only [hline] at h
      simp [readInner, readLine, hline, ih h]
    | other =>
      simp only [hline] at h
      simp [readInner, readLine, hline, ih h]
    | endef =>
      simp only [hline] at h
      obtain ⟨hlevel, hcomment, h⟩ := h
      have hne : level ≠ 1 := by omega
      simp [readInner, readLine, hline, hne, ih h, removeComments_eq hcomment]

/-- Lines are balanced when their body stays open at the first level and keeps all
comment signs, provided that a line without its comment has none. -/
theorem balanced_of_readInner {level : ℕ} {lines kept : List Line} (hlevel : 1 ≤ level)
    (h : readInner level lines = some (1, kept))
    (hcut : ∀ line ∈ lines, removeComments 0 line ∈ kept → '#' ∉ removeComments 0 line)
    (hcount : lines.flatten.count '#' ≤ kept.flatten.count '#') :
    Balanced level lines ∧ kept = lines := by
  induction lines generalizing level kept with
  | nil =>
    obtain ⟨rfl, rfl⟩ : level = 1 ∧ [] = kept := by simpa [readInner] using h
    exact ⟨rfl, rfl⟩
  | cons line lines ih =>
    obtain ⟨next, first, kept, hline, hinner, rfl⟩ := readInner_cons h
    have hle := count_readLine_le hline '#'
    have hle' := count_readInner_le hinner '#'
    simp only [List.flatten_cons, List.count_append] at hcount
    have ih {next : ℕ} (hnext : 1 ≤ next) (hinner : readInner next lines = some (1, kept)) :=
      ih hnext hinner (fun l hl hmem => hcut l (by simp [hl]) (by simp [hmem])) (by omega)
    rw [Balanced]
    obtain ⟨hdir, rfl, rfl⟩ | ⟨hdir, hne, rfl, rfl⟩ | ⟨hdir, rfl, rfl⟩ := readLine_cases hline
    · obtain ⟨hbalanced, rfl⟩ := ih (by omega) hinner
      simp [hdir, hbalanced]
    · obtain ⟨hbalanced, rfl⟩ := ih (by omega) hinner
      have hnone : '#' ∉ line := by
        have hzero := List.count_eq_zero.mpr (hcut line List.mem_cons_self List.mem_cons_self)
        exact List.count_eq_zero.mp (by omega)
      simp only [hdir, removeComments_eq hnone, List.replicate_zero, List.nil_append, and_true]
      exact ⟨by omega, hnone, hbalanced⟩
    · obtain ⟨hbalanced, rfl⟩ := ih hlevel hinner
      simp [hdir, hbalanced]

end Make
