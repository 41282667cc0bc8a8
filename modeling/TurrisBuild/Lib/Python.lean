import Mathlib.Data.List.DropRight
import Mathlib.Data.List.Nodup
import Mathlib.Tactic.Common

/-!
# Text files and dictionaries of Python

Lines of a file that is opened as text, the methods that remove whitespace, and
dictionaries, which keep the order of insertion.
-/

namespace Python

/-- The characters that `str.strip` removes. -/
def isSpace (c : Char) : Bool :=
  let n := c.toNat
  (9 ≤ n && n ≤ 13) || (28 ≤ n && n ≤ 32) || n == 0x85 || n == 0xa0 || n == 0x1680 ||
    (0x2000 ≤ n && n ≤ 0x200a) || n == 0x2028 || n == 0x2029 || n == 0x202f || n == 0x205f ||
    n == 0x3000

/-- `str.rstrip`. -/
def rstrip (s : List Char) : List Char := s.rdropWhile isSpace

/-- `str.strip`. -/
def strip (s : List Char) : List Char := rstrip (s.dropWhile isSpace)

/-- The ends of lines of a file are translated when it is read as text. -/
def universalNewlines : List Char → List Char
  | '\r' :: '\n' :: rest => '\n' :: universalNewlines rest
  | c :: rest => (if c = '\r' then '\n' else c) :: universalNewlines rest
  | [] => []

/-- The lines of a text, with their ends. -/
def keepLines : List Char → List (List Char)
  | [] => []
  | c :: rest =>
    if c = '\n' then [c] :: keepLines rest
    else
      match keepLines rest with
      | [] => [[c]]
      | line :: lines => (c :: line) :: lines

/-- The lines over which an opened file iterates. -/
def readlines (text : List Char) : List (List Char) := keepLines (universalNewlines text)

/-- The text has no end of a line. -/
def OneLine (s : List Char) : Prop := '\n' ∉ s ∧ '\r' ∉ s

instance (s : List Char) : Decidable (OneLine s) := inferInstanceAs (Decidable (_ ∧ _))

/-! ### Whitespace -/

/-- A text is unchanged when it does not end with white space. -/
theorem rstrip_eq_self_iff {s : List Char} :
    rstrip s = s ↔ ∀ c ∈ s.getLast?, isSpace c = false := by
  rw [rstrip, List.rdropWhile_eq_self_iff]
  constructor
  · intro hlast c hc
    obtain ⟨init, rfl⟩ := List.getLast?_eq_some_iff.mp hc
    simpa using hlast (by simp)
  · intro hlast hne
    simpa using hlast _ (List.getLast?_eq_some_getLast hne)

/-- What is stripped at its end has no white space there. -/
theorem rstrip_rstrip (s : List Char) : rstrip (rstrip s) = rstrip s :=
  List.rdropWhile_idempotent _ _

/-- What is stripped has no white space at its end. -/
theorem rstrip_strip (s : List Char) : rstrip (strip s) = strip s := rstrip_rstrip _

/-- Whitespace at the end is removed. -/
theorem rstrip_append_space {s : List Char} {c : Char} (hc : isSpace c = true) :
    rstrip (s ++ [c]) = rstrip s :=
  List.rdropWhile_concat_pos _ _ _ hc

/-- Text after a character that is no whitespace is stripped on its own. -/
theorem rstrip_append_cons {c : Char} (hc : isSpace c = false) (s t : List Char) :
    rstrip (s ++ c :: t) = s ++ c :: rstrip t := by
  induction t using List.reverseRecOn with
  | nil => exact List.rdropWhile_concat_neg _ _ _ (by simp [hc])
  | append_singleton t d ih =>
    have hassoc : s ++ c :: (t ++ [d]) = s ++ c :: t ++ [d] := by simp
    by_cases hd : isSpace d = true
    · rw [hassoc, rstrip_append_space hd, rstrip_append_space hd, ih]
    · have hkeep (u : List Char) : rstrip (u ++ [d]) = u ++ [d] :=
        List.rdropWhile_concat_neg _ _ _ hd
      rw [hassoc, hkeep, hkeep]
      simp

/-- A stripped text has no whitespace in front. -/
theorem dropWhile_of_strip {s : List Char} (hs : strip s = s) : s.dropWhile isSpace = s := by
  have hle : (strip s).length ≤ (s.dropWhile isSpace).length :=
    (List.rdropWhile_prefix isSpace _).length_le
  rw [hs] at hle
  exact (List.dropWhile_suffix isSpace).eq_of_length_le hle

/-- A stripped text has no white space at its end. -/
theorem rstrip_of_strip {s : List Char} (hs : strip s = s) : rstrip s = s := by
  rwa [strip, dropWhile_of_strip hs] at hs

/-- Blanks in front are removed. -/
theorem strip_replicate_append (n : ℕ) (s : List Char) :
    strip (List.replicate n ' ' ++ s) = strip s := by
  induction n with
  | zero => rfl
  | succ n ih => exact ih

/-- Blanks around a stripped text, removed first at the end and then on both sides. -/
theorem strip_rstrip_replicate_append (n : ℕ) {s : List Char} (hs : strip s = s) :
    strip (rstrip (List.replicate n ' ' ++ s)) = s := by
  rcases List.eq_nil_or_concat s with rfl | ⟨init, c, rfl⟩
  · have hnil : rstrip (List.replicate n ' ' ++ []) = [] := by
      rw [rstrip, List.rdropWhile_eq_nil_iff]
      intro c hc
      rw [List.append_nil] at hc
      rw [List.eq_of_mem_replicate hc]
      rfl
    rw [hnil]
    rfl
  · have hlast := rstrip_eq_self_iff.mp (rstrip_of_strip hs)
    have hkeep : rstrip (List.replicate n ' ' ++ init.concat c) =
        List.replicate n ' ' ++ init.concat c := by
      rw [rstrip_eq_self_iff]
      simpa [← List.append_assoc] using hlast
    rw [hkeep, strip_replicate_append, hs]

/-- The white space at the ends of a text does not matter. -/
theorem strip_append_append {left right : List Char} (hleft : ∀ c ∈ left, isSpace c = true)
    (hright : ∀ c ∈ right, isSpace c = true) (s : List Char) :
    strip (left ++ s ++ right) = strip s := by
  have hend (t : List Char) : rstrip (t ++ right) = rstrip t := by
    induction right using List.reverseRecOn with
    | nil => rw [List.append_nil]
    | append_singleton right c ih =>
      rw [← List.append_assoc, rstrip_append_space (hright c (by simp))]
      exact ih fun d hd => hright d (List.mem_append_left _ hd)
  rw [strip, strip, List.append_assoc, List.dropWhile_append_of_pos hleft, List.dropWhile_append]
  split
  next hnil =>
    rw [List.isEmpty_iff.mp hnil, List.dropWhile_eq_nil_iff.mpr fun c hc => hright c hc]
  next => exact hend _

/-- What is stripped from a text is white space at its ends. -/
theorem strip_eq_iff {s t : List Char} :
    strip s = t ↔ strip t = t ∧ ∃ left right, s = left ++ t ++ right ∧
      (∀ c ∈ left, isSpace c = true) ∧ ∀ c ∈ right, isSpace c = true := by
  constructor
  · rintro rfl
    have hparts : s = s.takeWhile isSpace ++ strip s ++
        (s.dropWhile isSpace).rtakeWhile isSpace := by
      rw [List.append_assoc, strip, rstrip, List.rdropWhile_append_rtakeWhile,
        List.takeWhile_append_dropWhile]
    have hleft (c : Char) (hc : c ∈ s.takeWhile isSpace) : isSpace c = true :=
      List.mem_takeWhile_imp hc
    have hright (c : Char) (hc : c ∈ (s.dropWhile isSpace).rtakeWhile isSpace) :
        isSpace c = true := List.mem_rtakeWhile_imp hc
    refine ⟨?_, _, _, hparts, hleft, hright⟩
    rw [← strip_append_append hleft hright (strip s), ← hparts]
  · rintro ⟨hstrip, left, right, rfl, hleft, hright⟩
    rw [strip_append_append hleft hright, hstrip]

/-- A text is split into the pieces between the separators. -/
theorem mem_splitOn_iff {sep : Char} {piece text : List Char} :
    piece ∈ text.splitOn sep ↔ sep ∉ piece ∧ ∃ before after, text = before ++ piece ++ after ∧
      (before = [] ∨ before.getLast? = some sep) ∧ (after = [] ∨ after.head? = some sep) := by
  constructor
  · intro hpiece
    induction hlength : text.length using Nat.strong_induction_on generalizing text with
    | _ n ih =>
      by_cases hsep : sep ∈ text
      · obtain ⟨first, rest, rfl, hfirst⟩ := List.eq_append_cons_of_mem hsep
        rw [List.splitOn_append_cons_self_of_not_mem hfirst] at hpiece
        rcases List.mem_cons.mp hpiece with rfl | hpiece
        · exact ⟨hfirst, [], sep :: rest, by simp, .inl rfl, .inr rfl⟩
        · have hless : rest.length < n := by
            rw [← hlength, List.length_append, List.length_cons]
            omega
          obtain ⟨hnotMem, before, after, rfl, hbefore, hafter⟩ := ih _ hless hpiece rfl
          refine ⟨hnotMem, first ++ sep :: before, after, by simp, .inr ?_, hafter⟩
          rcases hbefore with rfl | hbefore
          · simp
          · simp [List.getLast?_append, List.getLast?_cons, hbefore]
      · rw [List.splitOn_eq_singleton hsep, List.mem_singleton] at hpiece
        subst hpiece
        exact ⟨hsep, [], [], by simp, .inl rfl, .inl rfl⟩
  · rintro ⟨hnotMem, before, after, rfl, hbefore, hafter⟩
    have hrest : piece ∈ (piece ++ after).splitOn sep := by
      rcases hafter with rfl | hafter
      · rw [List.append_nil, List.splitOn_eq_singleton hnotMem]
        exact List.mem_cons_self
      · obtain ⟨rest, rfl⟩ := List.head?_eq_some_iff.mp hafter
        rw [List.splitOn_append_cons_self_of_not_mem hnotMem]
        exact List.mem_cons_self
    rcases hbefore with rfl | hbefore
    · simpa using hrest
    · obtain ⟨init, rfl⟩ := List.getLast?_eq_some_iff.mp hbefore
      rw [List.append_assoc, List.append_assoc, List.singleton_append,
        List.splitOn_append_cons_self]
      exact List.mem_append_right _ hrest

/-! ### Lines -/

/-- Without carriage returns the ends of lines are left as they are. -/
theorem universalNewlines_eq {text : List Char} (htext : '\r' ∉ text) :
    universalNewlines text = text := by
  induction text with
  | nil => rfl
  | cons c text ih =>
    obtain ⟨hc, htext⟩ := not_or.mp (mt List.mem_cons.mpr htext)
    rw [universalNewlines, ih htext, if_neg (Ne.symm hc)]
    rintro rest rfl
    exact absurd rfl hc

/-- The first line of a text. -/
theorem keepLines_append {line : List Char} (hline : '\n' ∉ line) (rest : List Char) :
    keepLines (line ++ '\n' :: rest) = (line ++ ['\n']) :: keepLines rest := by
  induction line with
  | nil => simp [keepLines]
  | cons c line ih =>
    obtain ⟨hc, hline⟩ := not_or.mp (mt List.mem_cons.mpr hline)
    rw [List.cons_append, keepLines, if_neg (Ne.symm hc), ih hline]
    rfl

/-- The lines that are written are read again. -/
theorem readlines_write {lines : List (List Char)} (hlines : ∀ line ∈ lines, OneLine line) :
    readlines (lines.flatMap (· ++ ['\n'])) = lines.map (· ++ ['\n']) := by
  have hreturn : '\r' ∉ lines.flatMap (· ++ ['\n']) := by
    intro hmem
    obtain ⟨line, hline, hc⟩ := List.mem_flatMap.mp hmem
    rcases List.mem_append.mp hc with hc | hc
    · exact (hlines line hline).2 hc
    · exact absurd hc (by decide)
  rw [readlines, universalNewlines_eq hreturn]
  clear hreturn
  induction lines with
  | nil => rfl
  | cons line lines ih =>
    obtain ⟨hline, hlines⟩ := List.forall_mem_cons.mp hlines
    rw [List.flatMap_cons, List.append_assoc, List.singleton_append, keepLines_append hline.1,
      ih hlines, List.map_cons]

/-! ### Dictionaries -/

section Dict

variable {κ ν : Type*} [DecidableEq κ]

/-- An assignment to a key. -/
def setItem : List (κ × ν) → κ → ν → List (κ × ν)
  | [], key, value => [(key, value)]
  | entry :: dict, key, value =>
    if entry.1 = key then (key, value) :: dict else entry :: setItem dict key value

/-- A new key comes last. -/
theorem setItem_of_not_mem {dict : List (κ × ν)} {key : κ} (hkey : key ∉ dict.map Prod.fst)
    (value : ν) : setItem dict key value = dict ++ [(key, value)] := by
  induction dict with
  | nil => rfl
  | cons entry dict ih =>
    obtain ⟨hne, hkey⟩ := not_or.mp (mt List.mem_cons.mpr hkey)
    rw [setItem, if_neg (Ne.symm hne), ih hkey, List.cons_append]

/-- A key that is there keeps its place. -/
theorem setItem_append_cons {dict : List (κ × ν)} {key : κ} (hkey : key ∉ dict.map Prod.fst)
    (value value' : ν) (rest : List (κ × ν)) :
    setItem (dict ++ (key, value) :: rest) key value' = dict ++ (key, value') :: rest := by
  induction dict with
  | nil => exact if_pos rfl
  | cons entry dict ih =>
    obtain ⟨hne, hkey⟩ := not_or.mp (mt List.mem_cons.mpr hkey)
    rw [List.cons_append, setItem, if_neg (Ne.symm hne), ih hkey, List.cons_append]

omit [DecidableEq κ] in
/-- The first entry with a key is found. -/
theorem lookup_append_cons [BEq κ] [LawfulBEq κ] {dict : List (κ × ν)} {key : κ}
    (hkey : key ∉ dict.map Prod.fst) (value : ν) (rest : List (κ × ν)) :
    (dict ++ (key, value) :: rest).lookup key = some value := by
  induction dict with
  | nil => simp
  | cons entry dict ih =>
    obtain ⟨hne, hkey⟩ := not_or.mp (mt List.mem_cons.mpr hkey)
    rw [List.cons_append, List.lookup_cons, beq_false_of_ne hne]
    exact ih hkey

/-- Every value of the dictionary after an assignment was there or is the new one. -/
theorem mem_setItem {dict : List (κ × ν)} {key : κ} {value : ν} {entry : κ × ν}
    (hmem : entry ∈ setItem dict key value) : entry = (key, value) ∨ entry ∈ dict := by
  induction dict with
  | nil => exact .inl (List.mem_singleton.mp hmem)
  | cons first dict ih =>
    rw [setItem] at hmem
    split at hmem
    · rcases List.mem_cons.mp hmem with rfl | hmem
      · exact .inl rfl
      · exact .inr (List.mem_cons_of_mem _ hmem)
    · rcases List.mem_cons.mp hmem with rfl | hmem
      · exact .inr List.mem_cons_self
      · exact (ih hmem).imp_right (List.mem_cons_of_mem _)

/-- The keys after an assignment. -/
theorem keys_setItem (dict : List (κ × ν)) (key : κ) (value : ν) :
    (setItem dict key value).map Prod.fst =
      if key ∈ dict.map Prod.fst then dict.map Prod.fst else dict.map Prod.fst ++ [key] := by
  induction dict with
  | nil => rfl
  | cons entry dict ih =>
    rw [setItem]
    by_cases heq : entry.1 = key
    · simp [heq]
    · rw [if_neg heq, List.map_cons, ih]
      have hmem : key ∈ (entry :: dict).map Prod.fst ↔ key ∈ dict.map Prod.fst := by
        simp [Ne.symm heq]
      rw [List.map_cons] at hmem ⊢
      simp only [hmem]
      split <;> rfl

/-- The keys of a dictionary stay distinct. -/
theorem nodup_setItem {dict : List (κ × ν)} (hdict : (dict.map Prod.fst).Nodup) (key : κ)
    (value : ν) : ((setItem dict key value).map Prod.fst).Nodup := by
  rw [keys_setItem]
  split
  · exact hdict
  next hkey =>
    rw [← List.concat_eq_append, List.nodup_concat]
    exact ⟨hkey, hdict⟩

/-- The entries of the dictionary after an assignment. -/
theorem mem_setItem_iff {dict : List (κ × ν)} (hdict : (dict.map Prod.fst).Nodup) {key key' : κ}
    {value value' : ν} :
    (key', value') ∈ setItem dict key value ↔
      key' = key ∧ value' = value ∨ key' ≠ key ∧ (key', value') ∈ dict := by
  by_cases hkey : key ∈ dict.map Prod.fst
  · obtain ⟨⟨key, old⟩, hmem, rfl⟩ := List.mem_map.mp hkey
    obtain ⟨pre, post, rfl⟩ := List.append_of_mem hmem
    rw [List.map_append, List.map_cons, List.nodup_middle, List.nodup_cons, List.mem_append,
      not_or] at hdict
    obtain ⟨⟨hpre, hpost⟩, -⟩ := hdict
    have hne (rest : List (κ × ν)) (hrest : key ∉ rest.map Prod.fst)
        (hentry : (key', value') ∈ rest) : key' ≠ key := by
      rintro rfl
      exact hrest (List.mem_map_of_mem hentry)
    rw [setItem_append_cons hpre]
    simp only [List.mem_append, List.mem_cons, Prod.mk.injEq]
    constructor
    · rintro (hmem | heq | hmem)
      · exact .inr ⟨hne pre hpre hmem, .inl hmem⟩
      · exact .inl heq
      · exact .inr ⟨hne post hpost hmem, .inr (.inr hmem)⟩
    · rintro (heq | ⟨hne, hmem | heq | hmem⟩)
      · exact .inr (.inl heq)
      · exact .inl hmem
      · exact absurd heq.1 hne
      · exact .inr (.inr hmem)
  · rw [setItem_of_not_mem hkey, List.mem_append, List.mem_singleton, Prod.mk.injEq, or_comm]
    refine or_congr_right (and_iff_right_of_imp ?_).symm
    rintro hmem rfl
    exact hkey (List.mem_map_of_mem hmem)

omit [DecidableEq κ] in
/-- With distinct keys the entries are what is looked up. -/
theorem lookup_eq_some_iff [BEq κ] [LawfulBEq κ] {dict : List (κ × ν)}
    (hdict : (dict.map Prod.fst).Nodup) {key : κ} {value : ν} :
    dict.lookup key = some value ↔ (key, value) ∈ dict := by
  constructor
  · intro hlookup
    obtain ⟨pre, post, rfl, -⟩ := List.lookup_eq_some_iff.mp hlookup
    exact List.mem_append_right pre List.mem_cons_self
  · intro hmem
    obtain ⟨pre, post, rfl⟩ := List.append_of_mem hmem
    rw [List.map_append, List.map_cons, List.nodup_middle, List.nodup_cons, List.mem_append,
      not_or] at hdict
    exact lookup_append_cons hdict.1.1 value post

end Dict

/-- The pairs of `itertools.combinations`. -/
def combinations {α : Type*} : List α → List (α × α)
  | [] => []
  | a :: l => l.map (a, ·) ++ combinations l

/-- Of distinct elements all pairs are among the combinations, in one order. -/
theorem mem_combinations {α : Type*} {l : List α} (hl : l.Nodup) {a b : α} :
    (a, b) ∈ combinations l ∨ (b, a) ∈ combinations l ↔ a ≠ b ∧ a ∈ l ∧ b ∈ l := by
  induction l with
  | nil => simp [combinations]
  | cons c l ih =>
    obtain ⟨hc, hl⟩ := List.nodup_cons.mp hl
    have hcons (x y : α) :
        (x, y) ∈ combinations (c :: l) ↔ x = c ∧ y ∈ l ∨ (x, y) ∈ combinations l := by
      simp [combinations, eq_comm, and_comm]
    rw [hcons, hcons, or_or_or_comm, ih hl, List.mem_cons, List.mem_cons]
    constructor
    · rintro ((⟨rfl, hb⟩ | ⟨rfl, ha⟩) | ⟨hne, ha, hb⟩)
      · exact ⟨fun hab => hc (hab ▸ hb), .inl rfl, .inr hb⟩
      · exact ⟨fun hab => hc (hab ▸ ha), .inr ha, .inl rfl⟩
      · exact ⟨hne, .inr ha, .inr hb⟩
    · rintro ⟨hne, rfl | ha, rfl | hb⟩
      · exact absurd rfl hne
      · exact .inl (.inl ⟨rfl, hb⟩)
      · exact .inl (.inr ⟨rfl, ha⟩)
      · exact .inr ⟨hne, ha, hb⟩

end Python
