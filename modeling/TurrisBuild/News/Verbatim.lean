import TurrisBuild.News.Escape

/-!
# News that arrive verbatim

The escaped text crosses `make` and the shell unchanged only if neither of them
finds something of its own in it. The lines of the text that `make` looks at are
those behind the first one, and the closing quote ends the last of them.
-/

namespace TurrisBuild.News

/-- The lines of the text, closed by a quote. -/
def newsLines (text : List Char) : List Make.Line := (text ++ ['"']).splitOn '\n'

/-- The same lines as they stand in the makefile. -/
def escapedLines (text : List Char) : List Make.Line := (escape text ++ ['"']).splitOn '\n'

/-- The conditions on a text: there is something to show, neither `make` nor the
shell expands a part of it, no line but the last ends in a carriage return, and
its lines have balanced `define` and `endef` directives without comments. -/
structure Survives (text : List Char) : Prop where
  nonempty : text ≠ []
  no_dollar : '$' ∉ text
  no_backquote : '`' ∉ text
  no_return : ∀ line ∈ newsLines text, line.getLast? ≠ some '\r'
  balanced : Make.Balanced 1 (newsLines text).tail

/-! ### Lines -/

private theorem splitOn_append_of_notMem {xs : List Char} (hxs : '\n' ∉ xs) (ys : List Char) :
    (xs ++ ys).splitOn '\n' = (ys.splitOn '\n').modifyHead (xs ++ ·) := by
  induction xs with
  | nil =>
    rw [List.nil_append]
    cases ys.splitOn '\n' <;> rfl
  | cons c xs ih =>
    have hc : (c == '\n') = false := beq_false_of_ne fun h => hxs (by simp [h])
    rw [List.cons_append, List.splitOn_cons_eq_if_modifyHead, if_neg (by simp [hc]),
      ih fun hmem => hxs (List.mem_cons_of_mem _ hmem)]
    cases ys.splitOn '\n' <;> rfl

/-- A line of the text and the same line escaped, both with what the quote adds. -/
def IsEscaped (line escaped : Make.Line) : Prop :=
  ∃ text rest, line = text ++ rest ∧ escaped = escape text ++ rest ∧ (rest = [] ∨ rest = ['"'])

private theorem IsEscaped.cons {line escaped : Make.Line} (h : IsEscaped line escaped) (c : Char) :
    IsEscaped (c :: line) (escape [c] ++ escaped) := by
  obtain ⟨text, rest, rfl, rfl, hrest⟩ := h
  refine ⟨c :: text, rest, rfl, ?_, hrest⟩
  rw [← List.append_assoc, ← escape_append]
  rfl

/-- The lines are escaped one by one. -/
theorem forall₂_escapedLines (text : List Char) :
    List.Forall₂ IsEscaped (newsLines text) (escapedLines text) := by
  induction text with
  | nil => exact .cons ⟨[], ['"'], rfl, rfl, .inr rfl⟩ .nil
  | cons c text ih =>
    by_cases hc : c = '\n'
    · subst hc
      have hleft : newsLines ('\n' :: text) = [] :: newsLines text := by
        simp [newsLines, List.splitOn_cons_eq_if_modifyHead]
      have hright : escapedLines ('\n' :: text) = [] :: escapedLines text := by
        simp [escapedLines, escape_cons_of_notMem (by decide : '\n' ∉ specials),
          List.splitOn_cons_eq_if_modifyHead]
      rw [hleft, hright]
      exact .cons ⟨[], [], rfl, rfl, .inl rfl⟩ ih
    · have hleft : newsLines (c :: text) = (newsLines text).modifyHead (c :: ·) := by
        have hnotMem : '\n' ∉ [c] := by simpa using Ne.symm hc
        simpa [newsLines] using splitOn_append_of_notMem hnotMem (text ++ ['"'])
      have hnewline : '\n' ∉ escape [c] := by
        rw [← List.count_eq_zero, count_escape (by decide)]
        simpa [List.count_eq_zero] using Ne.symm hc
      have hright :
          escapedLines (c :: text) = (escapedLines text).modifyHead (escape [c] ++ ·) := by
        have happend : escape (c :: text) = escape [c] ++ escape text := escape_append [c] text
        rw [escapedLines, happend, List.append_assoc, splitOn_append_of_notMem hnewline]
        rfl
      rw [hleft, hright]
      revert ih
      generalize newsLines text = lines
      generalize escapedLines text = escaped
      intro ih
      cases ih with
      | nil => exact .nil
      | cons hline hlines => exact .cons (hline.cons c) hlines

private theorem exists_isEscaped {text : List Char} {escaped : Make.Line}
    (h : escaped ∈ escapedLines text) : ∃ line, IsEscaped line escaped := by
  have hlines := forall₂_escapedLines text
  revert h hlines
  generalize escapedLines text = lines
  generalize newsLines text = lines'
  intro h hlines
  induction hlines with
  | nil => simp at h
  | cons hline _ ih =>
    rcases List.mem_cons.mp h with rfl | h
    · exact ⟨_, hline⟩
    · exact ih h

section IsEscaped

variable {line escaped : Make.Line}

private theorem IsEscaped.directive_eq (h : IsEscaped line escaped) :
    Make.directive escaped = Make.directive line := by
  obtain ⟨text, rest, rfl, rfl, -⟩ := h
  exact directive_escape text rest

private theorem IsEscaped.getLast?_eq (h : IsEscaped line escaped) :
    escaped.getLast? = line.getLast? := by
  obtain ⟨text, rest, rfl, rfl, rfl | rfl⟩ := h
  · simp [getLast?_escape]
  · simp

private theorem IsEscaped.comment_iff (h : IsEscaped line escaped) :
    '#' ∈ escaped ↔ '#' ∈ line := by
  obtain ⟨text, rest, rfl, rfl, -⟩ := h
  simp [mem_escape]

private theorem IsEscaped.lone (h : IsEscaped line escaped) : Make.lone escaped = true := by
  obtain ⟨text, rest, -, rfl, hrest⟩ := h
  rcases hrest with rfl | rfl
  · exact lone_escape text rfl (by simp)
  · exact lone_escape text rfl (by simp)

private theorem IsEscaped.removeComments (h : IsEscaped line escaped)
    (hdollar : '$' ∉ Make.removeComments 0 escaped) : '#' ∉ Make.removeComments 0 escaped := by
  obtain ⟨text, rest, -, rfl, hrest⟩ := h
  exact removeComments_escape rfl text hrest hdollar

private theorem IsEscaped.continues (h : IsEscaped line escaped) {head : List Char}
    (hhead : Make.continues head = false) : Make.continues (head ++ escaped) = false := by
  obtain ⟨text, rest, -, rfl, rfl | rfl⟩ := h
  · simpa using continues_escape hhead text
  · simp [Make.continues]

/-- What is left of an escaped line is an escaped line. -/
theorem IsEscaped.dropCr (h : IsEscaped line escaped) :
    ∃ line', IsEscaped line' (Make.dropCr escaped) := by
  unfold Make.dropCr
  split
  next hlast =>
    obtain ⟨text, rest, rfl, rfl, rfl | rfl⟩ := h
    · rw [List.append_nil, getLast?_escape] at hlast
      obtain ⟨text, rfl⟩ := List.getLast?_eq_some_iff.mp hlast
      refine ⟨text, text, [], by simp, ?_, .inl rfl⟩
      simp [escape_cons_of_notMem (by decide : '\r' ∉ specials)]
    · simp at hlast
  next => exact ⟨line, h⟩

end IsEscaped

/-- Escaping keeps the directives of the lines balanced. -/
theorem balanced_iff {lines escaped : List Make.Line} (h : List.Forall₂ IsEscaped lines escaped)
    (level : ℕ) : Make.Balanced level lines ↔ Make.Balanced level escaped := by
  induction h generalizing level with
  | nil => rfl
  | cons hline _ ih =>
    rw [Make.Balanced, Make.Balanced, hline.directive_eq]
    split
    · exact ih _
    · rw [hline.comment_iff, ih]
    · exact ih _

private theorem balanced_tail_iff {text : List Char} {first : Make.Line} {rest : List Make.Line}
    (hlines : escapedLines text = first :: rest) :
    Make.Balanced 1 (newsLines text).tail ↔ Make.Balanced 1 rest := by
  have hforall := forall₂_escapedLines text
  rw [hlines] at hforall
  cases hnews : newsLines text with
  | nil =>
    rw [hnews] at hforall
    cases hforall
  | cons line lines =>
    rw [hnews] at hforall
    exact balanced_iff (List.forall₂_cons.mp hforall).2 1

/-! ### The makefile -/

private theorem commandSubstitution_of_getLast? {text : List Char}
    (hlast : text.getLast? ≠ some '\n') : Shell.commandSubstitution (text ++ ['\n']) = text := by
  rw [Shell.commandSubstitution, List.rdropWhile_concat_pos _ _ _ (by decide),
    List.rdropWhile_eq_self_iff]
  intro hne hnewline
  exact hlast (by simpa [List.getLast?_eq_some_getLast hne] using hnewline)

private theorem commandSubstitution_newsNotification {text : List Char} (hne : text ≠ [])
    (hlast : text.getLast? ≠ some '\n') :
    Shell.commandSubstitution (newsNotification text) =
      notificationCall ++ (escape text ++ ['"']) := by
  have hescape : escape ['\n'] = ['\n'] := rfl
  have hempty : escape text ≠ [] := fun h => by
    have := getLast?_escape text
    simp [h, eq_comm, hne] at this
  have hnews : newsNotification text =
      (notificationCall ++ (escape text ++ ['"'])) ++ ['\n'] := by
    rw [newsNotification, escape_append, hescape,
      commandSubstitution_of_getLast? (by rwa [getLast?_escape])]
    simp [hempty]
  rw [hnews, commandSubstitution_of_getLast? (by simp)]

private theorem splitOn_flatMap {lines : List Make.Line} (hlines : ∀ line ∈ lines, '\n' ∉ line) :
    (lines.flatMap (· ++ ['\n'])).splitOn '\n' = lines ++ [[]] := by
  induction lines with
  | nil => rfl
  | cons line lines ih =>
    obtain ⟨hline, hlines⟩ := List.forall_mem_cons.mp hlines
    rw [List.flatMap_cons, List.append_assoc, List.singleton_append,
      List.splitOn_append_cons_self_of_not_mem hline, ih hlines]
    rfl

private theorem newline_notMem_tailLines : ∀ line ∈ tailLines, '\n' ∉ line := by decide +kernel

private theorem splitOn_genPackage {text : List Char} (hne : text ≠ [])
    (hlast : text.getLast? ≠ some '\n') {first : Make.Line} {rest : List Make.Line}
    (hlines : escapedLines text = first :: rest) :
    ((genPackage text).splitOn '\n').dropLast =
      shebang :: guardLine ['$', '$'] :: ('\t' :: notificationCall ++ first) ::
        (rest ++ tailLines) := by
  have hshebang : '\n' ∉ shebang := by decide
  have hguard : '\n' ∉ guardLine ['$', '$'] := by decide
  have hcall : '\n' ∉ '\t' :: notificationCall := by decide
  have hnews : ('\t' :: (notificationCall ++ (escape text ++ ['"']))).splitOn '\n' =
      ('\t' :: notificationCall ++ first) :: rest := by
    rw [← List.cons_append, splitOn_append_of_notMem hcall]
    exact congrArg _ hlines
  rw [genPackage, commandSubstitution_newsNotification hne hlast,
    List.splitOn_append_cons_self_of_not_mem hshebang,
    List.splitOn_append_cons_self_of_not_mem hguard, List.splitOn_append_cons_self, hnews,
    splitOn_flatMap newline_notMem_tailLines]
  simp only [← List.append_assoc, ← List.cons_append, List.dropLast_concat]

/-- The lines of the makefile as `make` reads them. -/
theorem readLines_genPackage {text : List Char} (hne : text ≠ [])
    (hlast : text.getLast? ≠ some '\n') {first : Make.Line} {rest : List Make.Line}
    (hlines : escapedLines text = first :: rest) :
    Make.readLines (genPackage text) =
      some (shebang :: guardLine ['$', '$'] :: ('\t' :: notificationCall ++ Make.dropCr first) ::
        (rest.map Make.dropCr ++ tailLines)) := by
  have hescaped : ∀ line ∈ first :: rest, ∃ line', IsEscaped line' (Make.dropCr line) := by
    intro line hline
    obtain ⟨line', hline'⟩ := exists_isEscaped (hlines ▸ hline)
    exact hline'.dropCr
  obtain ⟨⟨line', hfirst⟩, hrest⟩ := List.forall_mem_cons.mp hescaped
  have hstatic : ∀ line ∈ shebang :: guardLine ['$', '$'] :: tailLines,
      Make.dropCr line = line ∧ Make.continues line = false := by
    decide +kernel
  obtain ⟨hshebang, hguard, htail⟩ : _ ∧ _ ∧ _ := by
    simpa only [List.forall_mem_cons] using hstatic
  have htailMap : tailLines.map Make.dropCr = tailLines := by
    conv_rhs => rw [← List.map_id tailLines]
    exact List.map_congr_left fun line hline => (htail line hline).1
  have hcall : ('\t' :: notificationCall).getLast? ≠ some '\r' := by decide
  rw [Make.readLines, splitOn_genPackage hne hlast hlines]
  simp only [List.map_cons, List.map_append, htailMap, hshebang.1, hguard.1,
    Make.dropCr_append hcall]
  refine if_neg ?_
  simp only [List.any_cons, List.any_append, Bool.or_eq_true, List.any_eq_true, hshebang.2,
    hguard.2, hfirst.continues (by decide : Make.continues ('\t' :: notificationCall) = false)]
  rintro (h | h | h | ⟨line, hline, h⟩ | ⟨line, hline, h⟩)
  · exact Bool.noConfusion h
  · exact Bool.noConfusion h
  · exact Bool.noConfusion h
  · obtain ⟨escaped, hmem, rfl⟩ := List.mem_map.mp hline
    obtain ⟨line', hline'⟩ := hrest escaped hmem
    have hnot := hline'.continues (rfl : Make.continues [] = false)
    rw [List.nil_append] at hnot
    simp [hnot] at h
  · simp [(htail line hline).2] at h

/-- The lines before the notification and the notification itself stay in the body. -/
private theorem readDefine_head (first : Make.Line) (lines : List Make.Line) :
    Make.readDefine 1 (shebang :: guardLine ['$', '$'] :: ('\t' :: notificationCall ++ first) ::
        lines) =
      (Make.readDefine 1 lines).map fun body =>
        shebang :: guardLine ['$', '$'] :: ('\t' :: notificationCall ++ first) :: body := by
  have hshebang : Make.readLine 1 shebang = some (1, shebang) := rfl
  have hguard : Make.readLine 1 (guardLine ['$', '$']) = some (1, guardLine ['$', '$']) := rfl
  have hcall : Make.readLine 1 ('\t' :: notificationCall ++ first) =
      some (1, '\t' :: notificationCall ++ first) := rfl
  simp only [Make.readDefine, hshebang, hguard, hcall, Option.map_map, Function.comp_def]

/-- The lines behind the notification close the body only at the first level. -/
private theorem readDefine_tailLines {level : ℕ} (hlevel : 1 ≤ level) :
    Make.readDefine level tailLines = if level = 1 then some [['\x7d']] else none := by
  match level with
  | 1 => rfl
  | level + 2 => rfl

private theorem expandOnce_head (first : Make.Line) (body : List Make.Line) :
    Make.expandOnce (['\n'].intercalate (shebang :: guardLine ['$', '$'] ::
        ('\t' :: notificationCall ++ first) :: body)) =
      (Make.expandOnce (['\n'].intercalate (first :: body))).map
        (scriptHead ++ notificationCall ++ ·) := by
  have hfirst : ['\n'].intercalate (('\t' :: notificationCall ++ first) :: body) =
      '\t' :: notificationCall ++ ['\n'].intercalate (first :: body) := by
    cases body <;> simp
  have hbefore : '$' ∉ shebang ++ '\n' :: "[ -n \"".toList := by decide
  have hbehind : '$' ∉ "IPKG_INSTROOT\" ] || \x7b".toList ++ '\n' :: '\t' :: notificationCall := by
    decide
  rw [List.intercalate_cons_cons, List.intercalate_cons_cons, hfirst]
  unfold scriptHead guardLine
  -- The texts around the dollar signs matter only in what they do not hold.
  generalize "[ -n \"".toList = before at hbefore ⊢
  generalize "IPKG_INSTROOT\" ] || \x7b".toList = behind at hbehind ⊢
  have hsplit (text : List Char) :
      shebang ++ ['\n'] ++ (before ++ ['$', '$'] ++ behind ++ ['\n'] ++
        ('\t' :: notificationCall ++ text)) =
      (shebang ++ '\n' :: before) ++ '$' :: '$' ::
        ((behind ++ '\n' :: '\t' :: notificationCall) ++ text) := by
    simp
  rw [hsplit, Make.expandOnce_append hbefore, Make.expandOnce, Make.expandOnce_append hbehind]
  simp [Function.comp_def]

private theorem runPostinst_head_iff (quoted text : List Char) :
    runPostinst (scriptHead ++ notificationCall ++ quoted) = some (notification text) ↔
      Shell.doubleQuoted quoted = some (text, ['\n', '\x7d']) := by
  rw [runPostinst, if_pos (by simp), List.drop_left]
  split
  next out hout => simp [hout, notification]
  next hnone => exact iff_of_false (by simp) (hnone text)

/-- What the router runs, from the lines that `make` looks at. -/
theorem notified_iff {text : List Char} (hne : text ≠ []) (hlast : text.getLast? ≠ some '\n')
    {first : Make.Line} {rest : List Make.Line} (hlines : escapedLines text = first :: rest) :
    notified text = some (notification text) ↔
      ∃ body script, Make.readDefine 1 (rest.map Make.dropCr ++ tailLines) = some body ∧
        Make.expandOnce (['\n'].intercalate (Make.dropCr first :: body)) = some script ∧
        Shell.doubleQuoted script = some (text, ['\n', '\x7d']) := by
  rw [notified, postinst, readLines_genPackage hne hlast hlines]
  simp only [Option.bind_some, readDefine_head, Option.bind_eq_some_iff, Option.map_eq_some_iff]
  constructor
  · rintro ⟨script, ⟨_, ⟨body, hbody, rfl⟩, hscript⟩, hrun⟩
    rw [expandOnce_head] at hscript
    obtain ⟨quoted, hquoted, rfl⟩ := Option.map_eq_some_iff.mp hscript
    exact ⟨body, quoted, hbody, hquoted, (runPostinst_head_iff quoted text).mp hrun⟩
  · rintro ⟨body, quoted, hbody, hquoted, hout⟩
    refine ⟨_, ⟨_, ⟨body, hbody, rfl⟩, ?_⟩, (runPostinst_head_iff quoted text).mpr hout⟩
    rw [expandOnce_head, hquoted]
    rfl

/-! ### What is lost on the way -/

private theorem newline_notMem_of_mem_splitOn {text line : List Char}
    (h : line ∈ text.splitOn '\n') : '\n' ∉ line := by
  induction text generalizing line with
  | nil => simp_all
  | cons c text ih =>
    rw [List.splitOn_cons_eq_if_modifyHead] at h
    split at h
    · rcases List.mem_cons.mp h with rfl | h
      · simp
      · exact ih h
    next hc =>
      have hne : '\n' ≠ c := fun heq => hc (by simp [← heq])
      cases hsplit : text.splitOn '\n' with
      | nil => simp [hsplit] at h
      | cons first rest =>
        rw [hsplit] at h ih
        rcases List.mem_cons.mp h with rfl | h
        · simp [hne, ih List.mem_cons_self]
        · exact ih (List.mem_cons_of_mem _ h)

private theorem count_intercalate (c : Char) (first : Make.Line) (lines : List Make.Line) :
    (['\n'].intercalate (first :: lines)).count c =
      (first :: lines).flatten.count c + if c = '\n' then lines.length else 0 := by
  induction lines generalizing first with
  | nil => simp
  | cons line lines ih =>
    rw [List.intercalate_cons_cons, List.count_append, List.count_append, ih,
      List.flatten_cons (l := first), List.count_append]
    by_cases hc : c = '\n'
    · simp [hc]
      omega
    · simp [hc, Ne.symm hc]

/-- Other characters than backslashes, quotes and newlines are in the lines. -/
private theorem count_escapedLines {text : List Char} {first : Make.Line} {rest : List Make.Line}
    (hlines : escapedLines text = first :: rest) {c : Char} (hc : c ∉ ['\\', '"', '\n']) :
    (first :: rest).flatten.count c = text.count c := by
  simp only [List.mem_cons, List.not_mem_nil, or_false, not_or] at hc
  have hjoin : ['\n'].intercalate (first :: rest) = escape text ++ ['"'] := by
    rw [← hlines, escapedLines, List.intercalate_splitOn]
  have hcount := count_intercalate c first rest
  rw [hjoin, List.count_append, count_escape hc.1] at hcount
  simpa [hc, Ne.symm hc.2.1] using hcount.symm

/-- There is a newline for every line but the first. -/
private theorem count_newline {text : List Char} {first : Make.Line} {rest : List Make.Line}
    (hlines : escapedLines text = first :: rest) : text.count '\n' = rest.length := by
  have hjoin : ['\n'].intercalate (first :: rest) = escape text ++ ['"'] := by
    rw [← hlines, escapedLines, List.intercalate_splitOn]
  have hfree : '\n' ∉ (first :: rest).flatten := by
    rw [← hlines, List.mem_flatten]
    rintro ⟨line, hline, hmem⟩
    exact newline_notMem_of_mem_splitOn hline hmem
  have hcount := count_intercalate '\n' first rest
  rw [hjoin, List.count_append, count_escape (by decide), List.count_eq_zero.mpr hfree] at hcount
  simpa using hcount

/-- What the shell gets of every character is at least what the router shows. -/
private theorem count_le {text script : List Char} {first : Make.Line} {body : List Make.Line}
    (hscript : Make.expandOnce (['\n'].intercalate (first :: body)) = some script)
    (hout : Shell.doubleQuoted script = some (text, ['\n', '\x7d'])) {c : Char} (hc : c ≠ '$') :
    text.count c + ['\n', '\x7d'].count c ≤
      (first :: body).flatten.count c + if c = '\n' then body.length else 0 := by
  rw [← count_intercalate, ← Make.count_expandOnce hscript hc]
  exact Shell.count_doubleQuoted_le hout c

private theorem notMem_dropCr {c : Char} {line : Make.Line} (h : c ∉ line) :
    c ∉ Make.dropCr line := by
  have hle := Make.count_dropCr_le c line
  rw [List.count_eq_zero.mpr h] at hle
  exact List.count_eq_zero.mp (Nat.le_zero.mp hle)

private theorem notMem_removeComments {c : Char} {line : Make.Line} (h : c ∉ line) :
    c ∉ Make.removeComments 0 line := by
  have hle := Make.count_removeComments_le c 0 line
  rw [List.replicate_zero, List.nil_append, List.count_eq_zero.mpr h] at hle
  exact List.count_eq_zero.mp (Nat.le_zero.mp hle)

/-- Only a body that `make` closes behind the text has enough lines. -/
private theorem readInner_of_notified {text script : List Char} {first : Make.Line}
    {rest body : List Make.Line} (hlines : escapedLines text = first :: rest)
    (hbody : Make.readDefine 1 (rest.map Make.dropCr ++ tailLines) = some body)
    (hscript : Make.expandOnce (['\n'].intercalate (Make.dropCr first :: body)) = some script)
    (hout : Shell.doubleQuoted script = some (text, ['\n', '\x7d'])) :
    ∃ kept, Make.readInner 1 (rest.map Make.dropCr) = some (1, kept) ∧
      body = kept ++ [['\x7d']] := by
  have hfree : '\n' ∉ (Make.dropCr first :: body).flatten := by
    have hescaped : ∀ line ∈ first :: rest, '\n' ∉ Make.dropCr line := fun line hline =>
      notMem_dropCr (newline_notMem_of_mem_splitOn (hlines ▸ hline))
    obtain ⟨hfirst, hrest⟩ := List.forall_mem_cons.mp hescaped
    have hread : ∀ line ∈ rest.map Make.dropCr ++ tailLines, '\n' ∉ line := by
      intro line hline
      rcases List.mem_append.mp hline with hline | hline
      · obtain ⟨escaped, hescaped, rfl⟩ := List.mem_map.mp hline
        exact hrest escaped hescaped
      · exact newline_notMem_tailLines line hline
    have hkept := Make.forall_readDefine
      (fun line hline => ⟨hread line hline, notMem_removeComments (hread line hline)⟩) hbody
    rw [List.mem_flatten]
    rintro ⟨line, hline, hmem⟩
    rcases List.mem_cons.mp hline with rfl | hline
    · exact hfirst hmem
    · exact hkept line hline hmem
  have hcount := count_le hscript hout (by decide : '\n' ≠ '$')
  rw [count_newline hlines, List.count_eq_zero.mpr hfree] at hcount
  cases hinner : Make.readInner 1 (rest.map Make.dropCr) with
  | none =>
    have hlen := Make.length_readDefine_lt hinner hbody
    simp at hcount hlen
    omega
  | some out =>
    obtain ⟨level, kept⟩ := out
    have hlevel := (Make.length_readInner (Nat.le_refl 1) hinner).1
    rw [Make.readDefine_append hinner, readDefine_tailLines hlevel] at hbody
    split at hbody
    next heq =>
      subst heq
      exact ⟨kept, rfl, by simpa [eq_comm] using hbody⟩
    next => simp at hbody

private theorem map_dropCr {lines : List Make.Line}
    (h : ∀ line ∈ lines, line.getLast? ≠ some '\r') : lines.map Make.dropCr = lines := by
  conv_rhs => rw [← List.map_id lines]
  exact List.map_congr_left fun line hline => Make.dropCr_eq (h line hline)

private theorem expandOnce_of_notMem {text : List Char} (h : '$' ∉ text) :
    Make.expandOnce text = some text := by
  simpa [Make.expandOnce] using Make.expandOnce_append h []

private theorem intercalate_concat {lines : List Make.Line} (hne : lines ≠ []) (last : Make.Line) :
    ['\n'].intercalate (lines ++ [last]) = ['\n'].intercalate lines ++ '\n' :: last := by
  induction lines with
  | nil => contradiction
  | cons line lines ih =>
    cases lines with
    | nil => simp
    | cons next lines =>
      have h := ih (by simp)
      simp only [List.cons_append, List.intercalate_cons_cons, List.append_assoc] at h ⊢
      rw [h]

/-- The text between the quotes when no line is changed. -/
private theorem intercalate_escapedLines (text : List Char) :
    ['\n'].intercalate (escapedLines text ++ [['\x7d']]) =
      escape text ++ '"' :: ['\n', '\x7d'] := by
  rw [escapedLines, intercalate_concat (List.splitOn_ne_nil _ _), List.intercalate_splitOn,
    List.append_assoc]
  rfl

private theorem no_return_iff {lines escaped : List Make.Line}
    (h : List.Forall₂ IsEscaped lines escaped) :
    (∀ line ∈ lines, line.getLast? ≠ some '\r') ↔ ∀ line ∈ escaped, line.getLast? ≠ some '\r' := by
  induction h with
  | nil => simp
  | cons hline _ ih => simp only [List.forall_mem_cons, hline.getLast?_eq, ih]

/-- A script that `make` expands has no dollar sign in the lines of the text. -/
private theorem dollar_notMem_kept {first : Make.Line} {rest kept : List Make.Line}
    {script : List Char} (hescaped : ∀ line ∈ first :: rest, ∃ line', IsEscaped line' line)
    (hbody : Make.readDefine 1 (rest ++ tailLines) = some (kept ++ [['\x7d']]))
    (hscript : Make.expandOnce (['\n'].intercalate (first :: kept ++ [['\x7d']])) = some script) :
    '$' ∉ (first :: kept).flatten := by
  intro hdollar
  have htail : ∀ line ∈ tailLines, Make.lone line = true := by decide +kernel
  have hlone : ∀ line ∈ rest ++ tailLines, Make.lone line = true := by
    intro line hline
    rcases List.mem_append.mp hline with hline | hline
    · obtain ⟨line', hline'⟩ := hescaped line (List.mem_cons_of_mem _ hline)
      exact hline'.lone
    · exact htail line hline
  have hkept := Make.forall_readDefine
    (fun line hline => ⟨hlone line hline, Make.lone_removeComments (hlone line hline)⟩) hbody
  obtain ⟨line', hfirst⟩ := hescaped first List.mem_cons_self
  have hlines : ∀ line ∈ first :: kept, Make.lone line = true :=
    List.forall_mem_cons.mpr ⟨hfirst.lone, fun line hline =>
      hkept line (List.mem_append_left _ hline)⟩
  rw [Make.expandOnce_intercalate hlines hdollar] at hscript
  contradiction

/-- A text that arrives verbatim meets all conditions. -/
theorem survives_of_notified {text : List Char} (hne : text ≠ [])
    (hlast : text.getLast? ≠ some '\n') (h : notified text = some (notification text)) :
    Survives text := by
  obtain ⟨first, rest, hlines⟩ := List.exists_cons_of_ne_nil (List.splitOn_ne_nil '\n'
    (escape text ++ ['"']))
  have hlines : escapedLines text = first :: rest := hlines
  obtain ⟨body, script, hbody, hscript, hout⟩ := (notified_iff hne hlast hlines).mp h
  obtain ⟨kept, hinner, rfl⟩ := readInner_of_notified hlines hbody hscript hout
  have hcount {c : Char} (hc : c ∉ ['\\', '"', '\n']) (hc' : c ∉ ['$', '\x7d']) :
      (first :: rest).flatten.count c ≤ (Make.dropCr first :: kept).flatten.count c := by
    simp only [List.mem_cons, List.not_mem_nil, or_false, not_or] at hc hc'
    have hle := count_le hscript hout hc'.1
    rw [← count_escapedLines hlines (by simp [hc]), ← List.cons_append, List.flatten_append,
      List.count_append, if_neg hc.2.2] at hle
    have hbrace : [['\x7d']].flatten.count c = 0 := by simp [Ne.symm hc'.2]
    omega
  -- No line loses a carriage return, so that the lines are read as they are.
  have hreturn : ∀ line ∈ first :: rest, line.getLast? ≠ some '\r' := by
    refine Make.getLast?_of_count_le (Nat.le_trans (hcount (by decide) (by decide)) ?_)
    have := Make.count_readInner_le hinner '\r'
    simp only [List.map_cons, List.flatten_cons, List.count_append]
    omega
  have hkeep := map_dropCr hreturn
  obtain ⟨hfirst, hrest⟩ := List.cons.inj hkeep
  rw [hrest] at hinner hbody
  rw [hfirst, ← List.cons_append] at hscript
  have hescaped : ∀ line ∈ first :: rest, ∃ line', IsEscaped line' line :=
    fun line hline => exists_isEscaped (hlines ▸ hline)
  have hdollar := dollar_notMem_kept hescaped hbody hscript
  -- No line loses a comment sign either.
  have hcut : ∀ line ∈ rest, Make.removeComments 0 line ∈ kept →
      '#' ∉ Make.removeComments 0 line := by
    intro line hline hmem
    obtain ⟨line', hline'⟩ := hescaped line (List.mem_cons_of_mem _ hline)
    refine hline'.removeComments fun hd => hdollar ?_
    exact List.mem_flatten.mpr ⟨_, List.mem_cons_of_mem _ hmem, hd⟩
  have hcomment := hcount (by decide : '#' ∉ ['\\', '"', '\n']) (by decide)
  simp only [hfirst, List.flatten_cons, List.count_append] at hcomment
  obtain ⟨hbalanced, rfl⟩ :=
    Make.balanced_of_readInner (Nat.le_refl 1) hinner hcut (by omega)
  have hnone : '$' ∉ text := by
    rw [← List.count_eq_zero, ← count_escapedLines hlines (by decide), List.count_eq_zero]
    exact hdollar
  have hforall := forall₂_escapedLines text
  refine ⟨hne, hnone, fun hback => ?_, (no_return_iff hforall).mpr (hlines ▸ hreturn), ?_⟩
  · rw [← hlines, intercalate_escapedLines, expandOnce_of_notMem (by simp [mem_escape, hnone])]
      at hscript
    obtain rfl := Option.some.inj hscript
    simp [doubleQuoted_escape, hback] at hout
  · exact (balanced_tail_iff hlines).mpr hbalanced

/-- A text that meets all conditions arrives verbatim. -/
theorem notified_of_survives {text : List Char} (hlast : text.getLast? ≠ some '\n')
    (h : Survives text) : notified text = some (notification text) := by
  obtain ⟨first, rest, hlines⟩ := List.exists_cons_of_ne_nil (List.splitOn_ne_nil '\n'
    (escape text ++ ['"']))
  have hlines : escapedLines text = first :: rest := hlines
  have hforall := forall₂_escapedLines text
  have hkeep : (first :: rest).map Make.dropCr = first :: rest := by
    have hreturn := (no_return_iff hforall).mp h.no_return
    rw [hlines] at hreturn
    exact map_dropCr hreturn
  obtain ⟨hfirst, hrest⟩ := List.cons.inj hkeep
  have hbalanced := (balanced_tail_iff hlines).mp h.balanced
  refine (notified_iff h.nonempty hlast hlines).mpr
    ⟨rest ++ [['\x7d']], escape text ++ '"' :: ['\n', '\x7d'], ?_, ?_, ?_⟩
  · rw [hrest, Make.readDefine_append (Make.readInner_of_balanced hbalanced),
      readDefine_tailLines (Nat.le_refl 1)]
    rfl
  · rw [hfirst, ← List.cons_append, ← hlines, intercalate_escapedLines,
      expandOnce_of_notMem (by simp [mem_escape, h.no_dollar])]
  · simp [doubleQuoted_escape, h.no_backquote]

/-- **News arrive verbatim** exactly if the text survives its way. -/
theorem notified_verbatim_iff {text : List Char} (hlast : text.getLast? ≠ some '\n') :
    notified text = some (notification text) ↔ Survives text := by
  refine ⟨fun h => ?_, notified_of_survives hlast⟩
  by_cases hne : text = []
  · subst hne
    exact absurd h (by decide +kernel)
  · exact survives_of_notified hne hlast h

/-- A text with quotes and backslashes arrives. -/
theorem notified_quotes :
    notified "The \"new\" C:\\ drive".toList =
      some (notification "The \"new\" C:\\ drive".toList) ∧
    Survives "The \"new\" C:\\ drive".toList :=
  ⟨by decide +kernel, (notified_verbatim_iff (by decide)).mp (by decide +kernel)⟩

/-- A price does not. -/
theorem notified_price :
    "costs $5".toList.getLast? ≠ some '\n' ∧
      notified "costs $5".toList ≠ some (notification "costs $5".toList) := by
  decide +kernel

end TurrisBuild.News
