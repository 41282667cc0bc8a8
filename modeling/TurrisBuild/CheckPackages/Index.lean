import TurrisBuild.Lib.Outcome
import TurrisBuild.Lib.Python
import Mathlib.Data.List.Nodup

/-!
# Package indexes

`helpers/check-packages.py` reads the `Packages` files of a repository line by line.
Blank lines are only counted: a line that continues a value gets them back, and the
first attribute after them begins the next package. The last package is yielded at the
end of the file, whether there is one or not.
-/

namespace TurrisBuild.CheckPackages

open Outcome Python

/-- The attributes of a package, a dictionary. -/
abbrev Attributes := List (List Char × List Char)

/-- The exceptions of the script. -/
inductive Error
  /-- The `ValueError` for a line of an index. -/
  | invalidLine (line : List Char)
  | missingKey (key : List Char)
  /-- The assertion that an index does not name the feed. -/
  | namesFeed
  | duplicatePackage (name : List Char)
  /-- The `IndexError` for a checksum without a file. -/
  | noFile (line : List Char)
  | stopIteration
deriving DecidableEq

/-! ### Reading an index -/

/-- The variables of `indexread`. -/
structure Reader where
  pkg : Attributes
  last : Option (List Char)
  /-- The number of blank lines since the last other one. -/
  ends : ℕ

/-- The variables before the first line. -/
def Reader.start : Reader := ⟨[], none, 0⟩

/-- One line without the whitespace at its end: what is yielded and the variables after
it. -/
def Reader.step (reader : Reader) (line : List Char) : Except Error (List Attributes × Reader) :=
  let last := reader.last.getD []
  if line = [] then .ok ([], { reader with ends := reader.ends + 1 })
  else if line.head? = some ' ' ∧ last ≠ [] then
    match reader.pkg.lookup last with
    | none => .error (.missingKey last)
    | some value =>
      let value := value ++ List.replicate reader.ends '\n' ++ '\n' :: line.tail
      .ok ([], ⟨setItem reader.pkg last value, reader.last, 0⟩)
  else if ':' ∈ line then
    let name := line.takeWhile (· ≠ ':')
    let value := strip (line.dropWhile (· ≠ ':')).tail
    if reader.ends = 0 then .ok ([], ⟨setItem reader.pkg name value, some name, 0⟩)
    else .ok ([reader.pkg], ⟨setItem [] name value, some name, 0⟩)
  else .error (.invalidLine line)

/-- What is yielded for the lines that are left, and the exception that ends it. -/
def Reader.run (reader : Reader) : List (List Char) → List Attributes × Option Error
  | [] => ([reader.pkg], none)
  | line :: lines =>
    match reader.step (rstrip line) with
    | .error e => ([], some e)
    | .ok (yielded, reader) => (yielded ++ (reader.run lines).1, (reader.run lines).2)

/-- The reader of an index file. -/
def indexread (index : List (List Char)) : List Attributes × Option Error :=
  Reader.start.run index

/-! ### The format -/

/-- The value of an attribute. -/
structure Value where
  first : List Char
  continuation : List (List Char)
  strip_first : strip first = first
  oneLine_first : OneLine first
  rstrip_continuation : ∀ line ∈ continuation, rstrip line = line
  oneLine_continuation : ∀ line ∈ continuation, OneLine line

/-- An attribute of a package. -/
structure Attribute where
  name : List Char
  value : Value
  name_ne_nil : name ≠ []
  name_noColon : ':' ∉ name
  name_noBlank : name.head? ≠ some ' '
  oneLine_name : OneLine name

/-- A package of an index. -/
structure Stanza where
  attributes : List Attribute
  ne_nil : attributes ≠ []
  nodup : (attributes.map Attribute.name).Nodup

/-- The lines of a value joined by newlines. -/
def Value.text (value : Value) : List Char :=
  value.first ++ value.continuation.flatMap ('\n' :: ·)

/-- The dictionary of a stanza. -/
def Stanza.dict (stanza : Stanza) : Attributes :=
  stanza.attributes.map fun attr => (attr.name, attr.value.text)

/-- The lines of an attr, with so many blanks in front of its value. -/
def Attribute.lines (gap : ℕ) (attr : Attribute) : List (List Char) :=
  (attr.name ++ ':' :: (List.replicate gap ' ' ++ attr.value.first)) ::
    attr.value.continuation.map (' ' :: ·)

/-- The lines of a stanza. -/
def Stanza.lines (gap : ℕ) (stanza : Stanza) : List (List Char) :=
  stanza.attributes.flatMap (Attribute.lines gap) ++ [[]]

/-- The text of an index. -/
def indexText (gap : ℕ) (stanzas : List Stanza) : List Char :=
  (stanzas.flatMap (Stanza.lines gap)).flatMap (· ++ ['\n'])

/-- The control data of a package: its stanza with some blank lines behind it, or none. -/
def controlText (gap blanks : ℕ) (stanza : Stanza) : List Char :=
  (stanza.attributes.flatMap (Attribute.lines gap) ++ List.replicate blanks []).flatMap
    (· ++ ['\n'])

/-- The last line of the value is not blank, unless it is the first one. -/
def Value.Closed (value : Value) : Prop := value.continuation.getLast? ≠ some []

/-- No value of the stanza ends with a blank line. -/
def Stanza.Closed (stanza : Stanza) : Prop :=
  ∀ attr ∈ stanza.attributes, attr.value.Closed

/-! ### Reading what is written -/

section Format

variable {gap : ℕ}

private theorem oneLine_of_mem_lines {attr : Attribute} {line : List Char}
    (hline : line ∈ attr.lines gap) : OneLine line := by
  rcases List.mem_cons.mp hline with rfl | hline
  · obtain ⟨hname, hname'⟩ := attr.oneLine_name
    obtain ⟨hfirst, hfirst'⟩ := attr.value.oneLine_first
    constructor
    · simp [hname, hfirst]
    · simp [hname', hfirst']
  · obtain ⟨line, hmem, rfl⟩ := List.mem_map.mp hline
    obtain ⟨hnewline, hreturn⟩ := attr.value.oneLine_continuation line hmem
    constructor
    · simpa using hnewline
    · simpa using hreturn

/-- The lines of the file are those that are written. -/
theorem readlines_indexText (stanzas : List Stanza) :
    readlines (indexText gap stanzas) =
      (stanzas.flatMap (Stanza.lines gap)).map (· ++ ['\n']) := by
  refine readlines_write fun line hline => ?_
  obtain ⟨stanza, -, hline⟩ := List.mem_flatMap.mp hline
  rcases List.mem_append.mp hline with hline | hline
  · obtain ⟨attr, -, hline⟩ := List.mem_flatMap.mp hline
    exact oneLine_of_mem_lines hline
  · obtain rfl := List.mem_singleton.mp hline
    exact ⟨List.not_mem_nil, List.not_mem_nil⟩

/-- The newline at the end of a line does not matter. -/
theorem Reader.run_newlines (reader : Reader) (lines : List (List Char)) :
    reader.run (lines.map (· ++ ['\n'])) = reader.run lines := by
  induction lines generalizing reader with
  | nil => rfl
  | cons line lines ih =>
    rw [List.map_cons, Reader.run, Reader.run, rstrip_append_space (by decide)]
    simp only [ih]

variable (gap) in
/-- The first line of an attribute. -/
private theorem Reader.step_attribute (reader : Reader) (attr : Attribute) :
    reader.step (rstrip (attr.name ++
        ':' :: (List.replicate gap ' ' ++ attr.value.first))) =
      if reader.ends = 0 then
        .ok ([], ⟨setItem reader.pkg attr.name attr.value.first, some attr.name, 0⟩)
      else .ok ([reader.pkg], ⟨[(attr.name, attr.value.first)], some attr.name, 0⟩) := by
  have hline : rstrip (attr.name ++ ':' :: (List.replicate gap ' ' ++ attr.value.first)) =
      attr.name ++ ':' :: rstrip (List.replicate gap ' ' ++ attr.value.first) :=
    rstrip_append_cons (by decide) _ _
  have hvalue := strip_rstrip_replicate_append gap attr.value.strip_first
  generalize rstrip (List.replicate gap ' ' ++ attr.value.first) = value at hline hvalue
  have hname (c : Char) (hc : c ∈ attr.name) : decide (c ≠ ':') = true := by
    refine decide_eq_true ?_
    rintro rfl
    exact attr.name_noColon hc
  have hhead : (attr.name ++ ':' :: value).head? ≠ some ' ' := by
    rw [List.head?_append_of_ne_nil _ attr.name_ne_nil]
    exact attr.name_noBlank
  rw [hline, Reader.step, if_neg (by simp), if_neg (fun h => hhead h.1), if_pos (by simp),
    List.takeWhile_append_of_pos hname, List.dropWhile_append_of_pos hname]
  simp [hvalue, setItem]

/-- A line for which nothing is yielded. -/
private theorem Reader.run_cons {reader reader' : Reader} {line : List Char}
    (hstep : reader.step (rstrip line) = .ok ([], reader')) (lines : List (List Char)) :
    reader.run (line :: lines) = reader'.run lines := by
  rw [Reader.run, hstep]
  rfl

/-- The lines that continue a value. Blank ones are made good by the next one. -/
private theorem Reader.run_continuation (pkg : Attributes) {name : List Char} (hname : name ≠ [])
    (hpkg : name ∉ pkg.map Prod.fst) {lines : List (List Char)}
    (hlines : ∀ line ∈ lines, rstrip line = line) (hclosed : lines.getLast? ≠ some [])
    (value : List Char) (ends : ℕ) (hends : lines = [] → ends = 0) (rest : List (List Char)) :
    Reader.run ⟨pkg ++ [(name, value)], some name, ends⟩ (lines.map (' ' :: ·) ++ rest) =
      Reader.run ⟨pkg ++ [(name, value ++ List.replicate ends '\n' ++
        lines.flatMap ('\n' :: ·))], some name, 0⟩ rest := by
  induction lines generalizing value ends with
  | nil =>
    obtain rfl := hends rfl
    simp
  | cons line lines ih =>
    obtain ⟨hline, hfurther⟩ := List.forall_mem_cons.mp hlines
    by_cases hnil : line = []
    · subst hnil
      have hne : lines ≠ [] := by
        rintro rfl
        exact hclosed rfl
      have hstep : Reader.step ⟨pkg ++ [(name, value)], some name, ends⟩ (rstrip [' ']) =
          .ok ([], ⟨pkg ++ [(name, value)], some name, ends + 1⟩) := rfl
      rw [List.map_cons, List.cons_append, Reader.run_cons hstep,
        ih hfurther (by rwa [List.getLast?_cons_of_ne_nil hne] at hclosed) value (ends + 1)
          (fun h => absurd h hne), List.replicate_succ', List.flatMap_cons]
      simp
    · have hkeep : rstrip (' ' :: line) = ' ' :: line := by
        rw [rstrip_eq_self_iff, List.getLast?_cons_of_ne_nil hnil]
        exact rstrip_eq_self_iff.mp hline
      have hstep : Reader.step ⟨pkg ++ [(name, value)], some name, ends⟩ (rstrip (' ' :: line)) =
          .ok ([], ⟨pkg ++ [(name, value ++ List.replicate ends '\n' ++ '\n' :: line)],
            some name, 0⟩) := by
        simp only [hkeep, Reader.step, Option.getD_some, lookup_append_cons hpkg,
          setItem_append_cons hpkg]
        simp [hname]
      have hclosed' : lines.getLast? ≠ some [] := by
        cases lines with
        | nil => simp
        | cons next lines => simpa using hclosed
      rw [List.map_cons, List.cons_append, Reader.run_cons hstep,
        ih hfurther hclosed' _ 0 (fun _ => rfl), List.flatMap_cons]
      simp

/-- An attribute that does not begin a package. -/
private theorem Reader.run_attribute {attr : Attribute} (hclosed : attr.value.Closed)
    {pkg : Attributes} (hpkg : attr.name ∉ pkg.map Prod.fst) (last : Option (List Char))
    (rest : List (List Char)) :
    Reader.run ⟨pkg, last, 0⟩ (attr.lines gap ++ rest) =
      Reader.run ⟨pkg ++ [(attr.name, attr.value.text)], some attr.name, 0⟩ rest := by
  have hstep := Reader.step_attribute gap ⟨pkg, last, 0⟩ attr
  rw [if_pos rfl, setItem_of_not_mem hpkg] at hstep
  rw [Attribute.lines, List.cons_append, Reader.run_cons hstep,
    Reader.run_continuation pkg attr.name_ne_nil hpkg attr.value.rstrip_continuation hclosed _ 0
      (fun _ => rfl)]
  simp [Value.text]

/-- An attribute that begins a package. -/
private theorem Reader.run_first_attribute {attr : Attribute} (hclosed : attr.value.Closed)
    (pkg : Attributes) (last : Option (List Char)) (ends : ℕ) (rest : List (List Char)) :
    Reader.run ⟨pkg, last, ends + 1⟩ (attr.lines gap ++ rest) =
      Prod.map (pkg :: ·) id
        (Reader.run ⟨[(attr.name, attr.value.text)], some attr.name, 0⟩ rest) := by
  have hstep := Reader.step_attribute gap ⟨pkg, last, ends + 1⟩ attr
  rw [if_neg (Nat.succ_ne_zero ends)] at hstep
  have hrest := Reader.run_continuation [] attr.name_ne_nil List.not_mem_nil
    attr.value.rstrip_continuation hclosed attr.value.first 0 (fun _ => rfl) rest
  rw [Attribute.lines, List.cons_append, Reader.run, hstep]
  simp only [List.nil_append] at hrest
  simp [hrest, Value.text, Prod.map]

variable (gap) in
/-- Further attributes of a package. -/
private theorem Reader.run_attributes {attrs : List Attribute}
    (hclosed : ∀ attr ∈ attrs, attr.value.Closed) (pkg : Attributes)
    (hnodup : (pkg.map Prod.fst ++ attrs.map Attribute.name).Nodup) (last : Option (List Char))
    (rest : List (List Char)) :
    ∃ last', Reader.run ⟨pkg, last, 0⟩ (attrs.flatMap (Attribute.lines gap) ++ rest) =
      Reader.run ⟨pkg ++ attrs.map fun attr => (attr.name, attr.value.text), last', 0⟩ rest := by
  induction attrs generalizing pkg last with
  | nil => exact ⟨last, by simp⟩
  | cons attr attrs ih =>
    obtain ⟨hattr, hclosed⟩ := List.forall_mem_cons.mp hclosed
    have hpkg : attr.name ∉ pkg.map Prod.fst := by
      intro hmem
      exact (List.nodup_append.mp hnodup).2.2 _ hmem _ List.mem_cons_self rfl
    obtain ⟨last', hrun⟩ := ih hclosed (pkg ++ [(attr.name, attr.value.text)])
      (by simpa using hnodup) (some attr.name)
    refine ⟨last', ?_⟩
    rw [List.flatMap_cons, List.append_assoc, Reader.run_attribute hattr hpkg, hrun]
    simp

/-- The stanzas after a package. -/
private theorem Reader.run_stanzas {stanzas : List Stanza}
    (hclosed : ∀ stanza ∈ stanzas, stanza.Closed) (pkg : Attributes)
    (last : Option (List Char)) (ends : ℕ) :
    Reader.run ⟨pkg, last, ends + 1⟩ (stanzas.flatMap (Stanza.lines gap)) =
      (pkg :: stanzas.map Stanza.dict, none) := by
  induction stanzas generalizing pkg last ends with
  | nil => rfl
  | cons stanza stanzas ih =>
    obtain ⟨hstanza, hclosed⟩ := List.forall_mem_cons.mp hclosed
    obtain ⟨attr, attrs, hattrs⟩ := List.exists_cons_of_ne_nil stanza.ne_nil
    have hnodup := stanza.nodup
    rw [Stanza.Closed, hattrs] at hstanza
    rw [hattrs] at hnodup
    obtain ⟨hattr, hstanza⟩ := List.forall_mem_cons.mp hstanza
    obtain ⟨last', hrun⟩ := Reader.run_attributes gap hstanza
      [(attr.name, attr.value.text)] hnodup (some attr.name)
      ([] :: stanzas.flatMap (Stanza.lines gap))
    have hblank (pkg : Attributes) (rest : List (List Char)) :
        Reader.run ⟨pkg, last', 0⟩ ([] :: rest) = Reader.run ⟨pkg, last', 1⟩ rest :=
      Reader.run_cons rfl rest
    rw [List.flatMap_cons, Stanza.lines, hattrs, List.flatMap_cons]
    simp only [List.append_assoc, List.singleton_append]
    rw [Reader.run_first_attribute hattr, hrun, hblank, ih hclosed]
    simp [Stanza.dict, hattrs]

/-- An index is read as it is meant. -/
theorem indexread_of_closed {stanzas : List Stanza} (hne : stanzas ≠ [])
    (hclosed : ∀ stanza ∈ stanzas, stanza.Closed) :
    indexread (readlines (indexText gap stanzas)) = (stanzas.map Stanza.dict, none) := by
  obtain ⟨stanza, stanzas, rfl⟩ := List.exists_cons_of_ne_nil hne
  obtain ⟨hstanza, hclosed⟩ := List.forall_mem_cons.mp hclosed
  obtain ⟨last', hrun⟩ := Reader.run_attributes gap hstanza []
    (by simpa using stanza.nodup) none ([] :: stanzas.flatMap (Stanza.lines gap))
  have hblank (pkg : Attributes) (rest : List (List Char)) :
      Reader.run ⟨pkg, last', 0⟩ ([] :: rest) = Reader.run ⟨pkg, last', 1⟩ rest :=
    Reader.run_cons rfl rest
  rw [readlines_indexText, indexread, Reader.run_newlines, List.flatMap_cons, Stanza.lines,
    List.append_assoc, List.singleton_append, Reader.start, hrun, hblank,
    Reader.run_stanzas hclosed]
  simp [Stanza.dict]

/-- Blank lines at the end of a file end its last package. -/
private theorem Reader.run_blanks (pkg : Attributes) (last : Option (List Char))
    (ends blanks : ℕ) :
    Reader.run ⟨pkg, last, ends⟩ (List.replicate blanks []) = ([pkg], none) := by
  induction blanks generalizing ends with
  | zero => rfl
  | succ blanks ih =>
    have hstep : Reader.step ⟨pkg, last, ends⟩ (rstrip []) = .ok ([], ⟨pkg, last, ends + 1⟩) :=
      rfl
    rw [List.replicate_succ, Reader.run_cons hstep, ih]

/-- The control data of a package is read as it is meant. -/
theorem indexread_controlText {stanza : Stanza} (hclosed : stanza.Closed) (gap blanks : ℕ) :
    indexread (readlines (controlText gap blanks stanza)) = ([stanza.dict], none) := by
  have hlines : ∀ line ∈ stanza.attributes.flatMap (Attribute.lines gap) ++
      List.replicate blanks [], OneLine line := by
    intro line hline
    rcases List.mem_append.mp hline with hline | hline
    · obtain ⟨attr, -, hline⟩ := List.mem_flatMap.mp hline
      exact oneLine_of_mem_lines hline
    · obtain rfl := List.eq_of_mem_replicate hline
      exact ⟨List.not_mem_nil, List.not_mem_nil⟩
  obtain ⟨last', hrun⟩ := Reader.run_attributes gap hclosed [] (by simpa using stanza.nodup) none
    (List.replicate blanks [])
  rw [controlText, readlines_write hlines, indexread, Reader.run_newlines, Reader.start, hrun,
    Reader.run_blanks, List.nil_append, Stanza.dict]

/-! ### Blank lines at the end of a value -/

/-- No value ends with whitespace. -/
def Trimmed (pkg : Attributes) : Prop := ∀ entry ∈ pkg, rstrip entry.2 = entry.2

private theorem Trimmed.setItem {pkg : Attributes} (hpkg : Trimmed pkg) {value : List Char}
    (hvalue : rstrip value = value) (name : List Char) : Trimmed (setItem pkg name value) := by
  intro entry hmem
  rcases mem_setItem hmem with rfl | hmem
  · exact hvalue
  · exact hpkg entry hmem

private theorem rstrip_append_of_ne_nil {s t : List Char} (hne : t ≠ []) (ht : rstrip t = t) :
    rstrip (s ++ t) = s ++ t := by
  rw [rstrip_eq_self_iff, List.getLast?_append_of_ne_nil _ hne]
  exact rstrip_eq_self_iff.mp ht

private theorem Reader.step_trimmed {reader reader' : Reader} {line : List Char}
    {yielded : List Attributes} (hpkg : Trimmed reader.pkg) (hline : rstrip line = line)
    (hstep : reader.step line = .ok (yielded, reader')) :
    (∀ pkg ∈ yielded, Trimmed pkg) ∧ Trimmed reader'.pkg := by
  unfold Reader.step at hstep
  simp only at hstep
  split at hstep
  · obtain ⟨rfl, rfl⟩ := Prod.mk.inj (Except.ok.inj hstep)
    exact ⟨by simp, hpkg⟩
  split at hstep
  next hblank =>
    split at hstep
    next => cases hstep
    next value hvalue =>
      obtain ⟨rfl, rfl⟩ := Prod.mk.inj (Except.ok.inj hstep)
      obtain ⟨tail, rfl⟩ : ∃ tail, line = ' ' :: tail := List.head?_eq_some_iff.mp hblank.1
      have hne : tail ≠ [] := by
        rintro rfl
        exact absurd hline (by decide)
      have htail : rstrip tail = tail := by
        rw [rstrip_eq_self_iff, List.getLast?_cons_of_ne_nil hne] at hline
        exact rstrip_eq_self_iff.mpr hline
      refine ⟨by simp, hpkg.setItem ?_ _⟩
      rw [List.tail_cons, List.append_cons]
      exact rstrip_append_of_ne_nil hne htail
  next =>
    split at hstep
    · split at hstep
      · obtain ⟨rfl, rfl⟩ := Prod.mk.inj (Except.ok.inj hstep)
        exact ⟨by simp, hpkg.setItem (rstrip_strip _) _⟩
      · obtain ⟨rfl, rfl⟩ := Prod.mk.inj (Except.ok.inj hstep)
        have hnil : Trimmed [] := by simp [Trimmed]
        exact ⟨by simpa using hpkg, hnil.setItem (rstrip_strip _) _⟩
    · cases hstep

/-- Whatever is read, the values that are yielded do not end with whitespace. -/
theorem Reader.run_trimmed {reader : Reader} (hpkg : Trimmed reader.pkg)
    (lines : List (List Char)) : ∀ pkg ∈ (reader.run lines).1, Trimmed pkg := by
  induction lines generalizing reader with
  | nil => simpa [Reader.run] using hpkg
  | cons line lines ih =>
    rw [Reader.run]
    split
    · simp
    next yielded reader' hstep =>
      obtain ⟨hyielded, hreader⟩ := Reader.step_trimmed hpkg (rstrip_rstrip line) hstep
      intro pkg hmem
      rcases List.mem_append.mp hmem with hmem | hmem
      · exact hyielded pkg hmem
      · exact ih hreader pkg hmem

private theorem Value.closed_of_rstrip {value : Value} (hvalue : rstrip value.text = value.text) :
    value.Closed := by
  intro hlast
  obtain ⟨init, hinit⟩ := List.getLast?_eq_some_iff.mp hlast
  have htext : value.text = value.first ++ init.flatMap ('\n' :: ·) ++ ['\n'] := by
    simp [Value.text, hinit]
  rw [rstrip_eq_self_iff, htext, List.getLast?_concat] at hvalue
  exact absurd (hvalue '\n' rfl) (by decide)

/-- An index is read as it is meant exactly when it has a package and no value ends with a
blank line. -/
theorem indexread_iff (stanzas : List Stanza) :
    indexread (readlines (indexText gap stanzas)) = (stanzas.map Stanza.dict, none) ↔
      stanzas ≠ [] ∧ ∀ stanza ∈ stanzas, stanza.Closed := by
  refine ⟨fun hread => ⟨?_, ?_⟩, fun h => indexread_of_closed h.1 h.2⟩
  · rintro rfl
    cases hread
  · intro stanza hstanza attr hattr
    have htrimmed : Trimmed stanza.dict := by
      have hstart : Trimmed Reader.start.pkg := by simp [Reader.start, Trimmed]
      refine Reader.run_trimmed hstart (readlines (indexText gap stanzas)) _ ?_
      rw [indexread] at hread
      rw [hread]
      exact List.mem_map_of_mem hstanza
    exact Value.closed_of_rstrip (htrimmed _ (List.mem_map_of_mem hattr))

end Format

/-! ### All packages -/

/-- An index file and the name of its directory. -/
structure IndexFile where
  feed : List Char
  lines : List (List Char)

/-- A package of the index. The feed and the conflicts are written over the attributes of
these names. -/
structure Package where
  attributes : Attributes
  feed : List Char
  conflicts : List (List Char)
deriving DecidableEq

/-- The names in the attribute for conflicts. -/
def conflictsOf (pkg : Attributes) : List (List Char) :=
  match pkg.lookup "Conflicts".toList with
  | some names => (names.splitOn ',').map strip
  | none => []

/-- The entry for a package of an index file. -/
def entry (feed : List Char) (pkg : Attributes) : Except Error (List Char × Package) :=
  if (pkg.map Prod.fst).contains "Feed".toList then .error .namesFeed
  else
    match pkg.lookup "Package".toList with
    | none => .error (.missingKey "Package".toList)
    | some name => .ok (name, ⟨pkg, feed, conflictsOf pkg⟩)

/-- One package is added. -/
def addPackage (feed : List Char) (res : List (List Char × Package)) (pkg : Attributes) :
    Except Error (List (List Char × Package)) :=
  entry feed pkg >>= fun new =>
    if (res.map Prod.fst).contains new.1 then .error (.duplicatePackage new.1)
    else .ok (setItem res new.1 new.2)

/-- The packages of one index file are added. The exception of the reader comes after
those that it has yielded. -/
def addIndex (res : List (List Char × Package)) (index : IndexFile) :
    Except Error (List (List Char × Package)) :=
  (indexread index.lines).1.foldlM (addPackage index.feed) res >>= fun res =>
    match (indexread index.lines).2 with
    | some e => .error e
    | none => .ok res

/-- The index of all packages. -/
def packages (indexes : List IndexFile) : Except Error (List (List Char × Package)) :=
  indexes.foldlM addIndex []

/-- The entries for the packages of an index file that have one. -/
def IndexFile.entries (index : IndexFile) : List (List Char × Package) :=
  (indexread index.lines).1.filterMap fun pkg => (entry index.feed pkg).toOption

/-- The file can be read and all its packages have an entry. -/
structure IndexFile.Readable (index : IndexFile) : Prop where
  noError : (indexread index.lines).2 = none
  entry_ok : ∀ pkg ∈ (indexread index.lines).1, ∃ new, entry index.feed pkg = .ok new

private theorem addPackage_eq_ok_iff {feed : List Char} {res res' : List (List Char × Package)}
    {pkg : Attributes} :
    addPackage feed res pkg = .ok res' ↔
      ∃ new, entry feed pkg = .ok new ∧ new.1 ∉ res.map Prod.fst ∧ res' = res ++ [new] := by
  rw [addPackage, bind_eq_ok_iff]
  refine exists_congr fun new => and_congr_right fun _ => ?_
  by_cases hmem : new.1 ∈ res.map Prod.fst
  · rw [if_pos (List.contains_iff_mem.mpr hmem)]
    exact iff_of_false (fun h => by cases h) (fun h => h.1 hmem)
  · rw [if_neg (mt List.contains_iff_mem.mp hmem), setItem_of_not_mem hmem, Except.ok.injEq,
      eq_comm]
    exact (and_iff_right hmem).symm

/-- The packages of a file are added if all of them have an entry and the names are new. -/
private theorem foldlM_addPackage {feed : List Char} {pkgs : List Attributes}
    {res res' : List (List Char × Package)} (hres : (res.map Prod.fst).Nodup) :
    pkgs.foldlM (addPackage feed) res = .ok res' ↔
      (∀ pkg ∈ pkgs, ∃ new, entry feed pkg = .ok new) ∧
        res' = res ++ pkgs.filterMap (fun pkg => (entry feed pkg).toOption) ∧
        (res'.map Prod.fst).Nodup := by
  induction pkgs generalizing res with
  | nil =>
    rw [List.foldlM_nil, List.filterMap_nil, List.append_nil]
    constructor
    · intro h
      obtain rfl := Except.ok.inj h
      exact ⟨by simp, rfl, hres⟩
    · rintro ⟨-, rfl, -⟩
      rfl
  | cons pkg pkgs ih =>
    rw [List.foldlM_cons, bind_eq_ok_iff, List.forall_mem_cons]
    constructor
    · rintro ⟨step, hstep, hfold⟩
      obtain ⟨new, hentry, hnew, rfl⟩ := addPackage_eq_ok_iff.mp hstep
      have hnodup : ((res ++ [new]).map Prod.fst).Nodup := by
        rw [List.map_append, List.nodup_append]
        refine ⟨hres, List.nodup_singleton _, fun a ha b hb hab => ?_⟩
        rw [hab, List.mem_singleton.mp hb] at ha
        exact hnew ha
      obtain ⟨hall, rfl, hres'⟩ := (ih hnodup).mp hfold
      refine ⟨⟨⟨new, hentry⟩, hall⟩, ?_, hres'⟩
      rw [List.filterMap_cons_some (b := new) (by rw [hentry]; rfl), ← List.append_cons]
    · rintro ⟨⟨⟨new, hentry⟩, hall⟩, hentries, hres'⟩
      rw [List.filterMap_cons_some (b := new) (by rw [hentry]; rfl), List.append_cons] at hentries
      subst hentries
      have hnodup : ((res ++ [new]).map Prod.fst).Nodup := by
        rw [List.map_append] at hres'
        exact (List.nodup_append.mp hres').1
      have hnew : new.1 ∉ res.map Prod.fst := by
        intro hmem
        rw [List.map_append] at hnodup
        exact (List.nodup_append.mp hnodup).2.2 _ hmem _ List.mem_cons_self rfl
      exact ⟨res ++ [new], addPackage_eq_ok_iff.mpr ⟨new, hentry, hnew, rfl⟩,
        (ih hnodup).mpr ⟨hall, rfl, hres'⟩⟩

private theorem addIndex_eq_ok_iff {res res' : List (List Char × Package)} {index : IndexFile}
    (hres : (res.map Prod.fst).Nodup) :
    addIndex res index = .ok res' ↔
      index.Readable ∧ res' = res ++ index.entries ∧ (res'.map Prod.fst).Nodup := by
  rw [addIndex, bind_eq_ok_iff]
  constructor
  · rintro ⟨step, hfold, hend⟩
    split at hend
    · cases hend
    next hnone =>
      obtain rfl := Except.ok.inj hend
      obtain ⟨hall, hentries, hnodup⟩ := (foldlM_addPackage hres).mp hfold
      exact ⟨⟨hnone, hall⟩, hentries, hnodup⟩
  · rintro ⟨⟨hnone, hall⟩, hentries, hnodup⟩
    refine ⟨res', (foldlM_addPackage hres).mpr ⟨hall, hentries, hnodup⟩, ?_⟩
    rw [hnone]

private theorem foldlM_addIndex {indexes : List IndexFile} {res res' : List (List Char × Package)}
    (hres : (res.map Prod.fst).Nodup) :
    indexes.foldlM addIndex res = .ok res' ↔
      (∀ index ∈ indexes, index.Readable) ∧ res' = res ++ indexes.flatMap IndexFile.entries ∧
        (res'.map Prod.fst).Nodup := by
  induction indexes generalizing res with
  | nil =>
    rw [List.foldlM_nil, List.flatMap_nil, List.append_nil]
    constructor
    · intro h
      obtain rfl := Except.ok.inj h
      exact ⟨by simp, rfl, hres⟩
    · rintro ⟨-, rfl, -⟩
      rfl
  | cons index indexes ih =>
    rw [List.foldlM_cons, bind_eq_ok_iff, List.forall_mem_cons, List.flatMap_cons,
      ← List.append_assoc]
    constructor
    · rintro ⟨step, hstep, hfold⟩
      obtain ⟨hread, rfl, hnodup⟩ := (addIndex_eq_ok_iff hres).mp hstep
      obtain ⟨hall, hentries, hres'⟩ := (ih hnodup).mp hfold
      exact ⟨⟨hread, hall⟩, hentries, hres'⟩
    · rintro ⟨⟨hread, hall⟩, rfl, hres'⟩
      have hnodup : ((res ++ index.entries).map Prod.fst).Nodup := by
        rw [List.map_append] at hres'
        exact (List.nodup_append.mp hres').1
      exact ⟨_, (addIndex_eq_ok_iff hres).mpr ⟨hread, rfl, hnodup⟩,
        (ih hnodup).mpr ⟨hall, rfl, hres'⟩⟩

/-- There is an index of all packages exactly when all files can be read and the names
are distinct, and it has the entries of all files. -/
theorem packages_eq_ok_iff {indexes : List IndexFile} {res : List (List Char × Package)} :
    packages indexes = .ok res ↔
      (∀ index ∈ indexes, index.Readable) ∧ res = indexes.flatMap IndexFile.entries ∧
        (res.map Prod.fst).Nodup :=
  foldlM_addIndex List.nodup_nil

/-! ### Index files that are written -/

/-- An index file with given packages. -/
structure WrittenIndex where
  feed : List Char
  gap : ℕ
  stanzas : List Stanza

/-- The file as it is read. -/
def WrittenIndex.file (index : WrittenIndex) : IndexFile :=
  ⟨index.feed, readlines (indexText index.gap index.stanzas)⟩

/-- The name of the package. -/
def Stanza.package (stanza : Stanza) : Option (List Char) :=
  stanza.dict.lookup "Package".toList

/-- Every stanza names a package, and these names are distinct. -/
def PackagesDistinct (indexes : List WrittenIndex) : Prop :=
  ∃ names : List (List Char), names.Nodup ∧
    (indexes.flatMap WrittenIndex.stanzas).map Stanza.package = names.map some

/-- The files are read as they are meant, and with distinct names the index of all packages
has each of them once. -/
structure ReadsBack (indexes : List WrittenIndex) : Prop where
  dictionaries : ∀ index ∈ indexes,
    indexread index.file.lines = (index.stanzas.map Stanza.dict, none)
  packages : PackagesDistinct indexes →
    ∃ res, packages (indexes.map WrittenIndex.file) = .ok res ∧ (res.map Prod.fst).Nodup ∧
      ∀ name package, (name, package) ∈ res ↔ ∃ index ∈ indexes, ∃ stanza ∈ index.stanzas,
        stanza.package = some name ∧
          package = ⟨stanza.dict, index.feed, conflictsOf stanza.dict⟩

/-- The index file has a package, and no value ends with a blank line. -/
def WrittenIndex.Closed (index : WrittenIndex) : Prop :=
  index.stanzas ≠ [] ∧ ∀ stanza ∈ index.stanzas, stanza.Closed

/-- No package of the index file has an attribute for the feed. -/
def WrittenIndex.NoFeed (index : WrittenIndex) : Prop :=
  ∀ stanza ∈ index.stanzas, "Feed".toList ∉ stanza.attributes.map Attribute.name

private theorem entry_eq_ok_iff {feed : List Char} {pkg : Attributes} {new : List Char × Package} :
    entry feed pkg = .ok new ↔
      "Feed".toList ∉ pkg.map Prod.fst ∧ ∃ name, pkg.lookup "Package".toList = some name ∧
        new = (name, ⟨pkg, feed, conflictsOf pkg⟩) := by
  unfold entry
  split
  next hfeed =>
    exact iff_of_false (fun h => by cases h) (fun h => h.1 (List.contains_iff_mem.mp hfeed))
  next hfeed =>
    rw [and_iff_right (mt List.contains_iff_mem.mpr hfeed)]
    cases hname : pkg.lookup "Package".toList with
    | none => exact iff_of_false (fun h => by cases h) (fun ⟨_, h, _⟩ => by cases h)
    | some name =>
      constructor
      · intro h
        exact ⟨name, rfl, (Except.ok.inj h).symm⟩
      · rintro ⟨name', hname', rfl⟩
        rw [Option.some.inj hname']

section Written

variable {index : WrittenIndex} {indexes : List WrittenIndex}

/-- The names in the dictionary are those of the attributes. -/
theorem Stanza.keys_dict (stanza : Stanza) :
    stanza.dict.map Prod.fst = stanza.attributes.map Attribute.name := by
  simp [Stanza.dict, Function.comp_def]

/-- The entry for a stanza. -/
private def Stanza.entry (feed : List Char) (stanza : Stanza) : Option (List Char × Package) :=
  stanza.package.map fun name => (name, ⟨stanza.dict, feed, conflictsOf stanza.dict⟩)

private theorem entries_eq (hread : indexread index.file.lines =
    (index.stanzas.map Stanza.dict, none)) (hfeed : index.NoFeed) :
    index.file.entries = index.stanzas.filterMap (Stanza.entry index.feed) := by
  rw [IndexFile.entries, hread, List.filterMap_map]
  refine List.filterMap_congr fun stanza hstanza => ?_
  have hnone : "Feed".toList ∉ stanza.dict.map Prod.fst := by
    rw [stanza.keys_dict]
    exact hfeed stanza hstanza
  rw [Function.comp_apply, CheckPackages.entry, if_neg (mt List.contains_iff_mem.mp hnone),
    Stanza.entry, Stanza.package]
  cases stanza.dict.lookup "Package".toList with
  | none => rfl
  | some name => rfl

private theorem keys_entries (hread : indexread index.file.lines =
    (index.stanzas.map Stanza.dict, none)) (hfeed : index.NoFeed) :
    index.file.entries.map Prod.fst = index.stanzas.filterMap Stanza.package := by
  rw [entries_eq hread hfeed, List.map_filterMap]
  refine List.filterMap_congr fun stanza _ => ?_
  rw [Stanza.entry, Option.map_map]
  exact Option.map_id'

private theorem readable_of_named (hread : indexread index.file.lines =
    (index.stanzas.map Stanza.dict, none)) (hfeed : index.NoFeed)
    (hnamed : ∀ stanza ∈ index.stanzas, ∃ name, stanza.package = some name) :
    index.file.Readable := by
  refine ⟨by rw [hread], fun pkg hpkg => ?_⟩
  rw [hread] at hpkg
  obtain ⟨stanza, hstanza, rfl⟩ := List.mem_map.mp hpkg
  obtain ⟨name, hname⟩ := hnamed stanza hstanza
  refine ⟨_, entry_eq_ok_iff.mpr ⟨?_, name, hname, rfl⟩⟩
  rw [stanza.keys_dict]
  exact hfeed stanza hstanza

/-- With distinct names all packages are found. -/
private theorem packages_of_distinct (hread : ∀ index ∈ indexes,
      indexread index.file.lines = (index.stanzas.map Stanza.dict, none))
    (hfeed : ∀ index ∈ indexes, index.NoFeed) (hdistinct : PackagesDistinct indexes) :
    ∃ res, packages (indexes.map WrittenIndex.file) = .ok res ∧ (res.map Prod.fst).Nodup ∧
      ∀ name package, (name, package) ∈ res ↔ ∃ index ∈ indexes, ∃ stanza ∈ index.stanzas,
        stanza.package = some name ∧
          package = ⟨stanza.dict, index.feed, conflictsOf stanza.dict⟩ := by
  obtain ⟨names, hnodup, hnames⟩ := hdistinct
  have hnamed (index : WrittenIndex) (hindex : index ∈ indexes) :
      ∀ stanza ∈ index.stanzas, ∃ name, stanza.package = some name := by
    intro stanza hstanza
    have hmem : stanza.package ∈ names.map some := by
      rw [← hnames]
      exact List.mem_map_of_mem (List.mem_flatMap.mpr ⟨index, hindex, hstanza⟩)
    obtain ⟨name, -, hname⟩ := List.mem_map.mp hmem
    exact ⟨name, hname.symm⟩
  have hkeys : ((indexes.map WrittenIndex.file).flatMap IndexFile.entries).map Prod.fst =
      names := by
    calc ((indexes.map WrittenIndex.file).flatMap IndexFile.entries).map Prod.fst
        = indexes.flatMap fun index => index.file.entries.map Prod.fst := by
          rw [List.map_flatMap, List.flatMap_map]
      _ = indexes.flatMap fun index => index.stanzas.filterMap Stanza.package :=
          List.flatMap_congr fun index hindex =>
            keys_entries (hread index hindex) (hfeed index hindex)
      _ = ((indexes.flatMap WrittenIndex.stanzas).map Stanza.package).filterMap id := by
          rw [List.filterMap_map, List.filterMap_flatMap]
          rfl
      _ = names := by
          rw [hnames, List.filterMap_map]
          exact List.filterMap_some
  refine ⟨_, packages_eq_ok_iff.mpr ⟨?_, rfl, hkeys ▸ hnodup⟩, hkeys ▸ hnodup, ?_⟩
  · intro file hfile
    obtain ⟨index, hindex, rfl⟩ := List.mem_map.mp hfile
    exact readable_of_named (hread index hindex) (hfeed index hindex) (hnamed index hindex)
  · intro name package
    rw [List.flatMap_map, List.mem_flatMap]
    refine exists_congr fun index => and_congr_right fun hindex => ?_
    rw [entries_eq (hread index hindex) (hfeed index hindex), List.mem_filterMap]
    refine exists_congr fun stanza => and_congr_right fun _ => ?_
    rw [Stanza.entry, Option.map_eq_some_iff]
    constructor
    · rintro ⟨name, hname, hentry⟩
      obtain ⟨rfl, rfl⟩ := Prod.mk.inj hentry
      exact ⟨hname, rfl⟩
    · rintro ⟨hname, rfl⟩
      exact ⟨name, hname, rfl⟩

/-- The index of all packages has the stanzas of all files, whenever there is one. -/
theorem mem_packages_iff {res : List (List Char × Package)}
    (hclosed : ∀ index ∈ indexes, ∀ stanza ∈ index.stanzas, stanza.Closed)
    (hres : packages (indexes.map WrittenIndex.file) = .ok res) {name : List Char}
    {package : Package} :
    (name, package) ∈ res ↔ ∃ index ∈ indexes, ∃ stanza ∈ index.stanzas,
      stanza.package = some name ∧
        package = ⟨stanza.dict, index.feed, conflictsOf stanza.dict⟩ := by
  obtain ⟨hreadable, rfl, -⟩ := packages_eq_ok_iff.mp hres
  rw [List.flatMap_map, List.mem_flatMap]
  refine exists_congr fun index => and_congr_right fun hindex => ?_
  have hok := hreadable index.file (List.mem_map_of_mem hindex)
  have hne : index.stanzas ≠ [] := by
    intro hnil
    obtain ⟨new, hnew⟩ := hok.entry_ok [] (by simp [WrittenIndex.file, hnil, indexText,
      readlines, universalNewlines, keepLines, indexread, Reader.run, Reader.start])
    cases hnew
  have hread : indexread index.file.lines = (index.stanzas.map Stanza.dict, none) :=
    indexread_of_closed hne (hclosed index hindex)
  rw [IndexFile.entries, hread, List.filterMap_map, List.mem_filterMap]
  refine exists_congr fun stanza => and_congr_right fun hstanza => ?_
  obtain ⟨new, hnew⟩ := hok.entry_ok stanza.dict (by
    rw [hread]
    exact List.mem_map_of_mem hstanza)
  obtain ⟨-, name', hname', rfl⟩ := entry_eq_ok_iff.mp hnew
  rw [Function.comp_apply, hnew, Stanza.package, hname']
  simp [Except.toOption, WrittenIndex.file, eq_comm]

end Written

/-- An index file without packages. -/
def emptyIndex : WrittenIndex := ⟨"base".toList, 1, []⟩

/-- A package with a description that ends with a blank line. -/
def blankEnd : Stanza where
  attributes :=
    [⟨"Package".toList, ⟨"a".toList, [], by decide, by decide, by decide, by decide⟩,
        by decide, by decide, by decide, by decide⟩,
      ⟨"Description".toList, ⟨"b".toList, [[]], by decide, by decide, by decide, by decide⟩,
        by decide, by decide, by decide, by decide⟩,
      ⟨"Version".toList, ⟨"1".toList, [], by decide, by decide, by decide, by decide⟩,
        by decide, by decide, by decide, by decide⟩]
  ne_nil := by decide
  nodup := by decide

/-- **Reading back an index.** Index files that are written with given packages are read as
they are meant, and all packages are found when their names are distinct, exactly when
every file has a package, no value ends with a blank line, and no package names a feed. -/
theorem indexread_inverts_iff (indexes : List WrittenIndex) :
    ReadsBack indexes ↔
      (∀ index ∈ indexes, index.Closed) ∧
        (PackagesDistinct indexes → ∀ index ∈ indexes, index.NoFeed) := by
  constructor
  · intro hback
    refine ⟨fun index hindex => (indexread_iff _).mp (hback.dictionaries index hindex), ?_⟩
    intro hdistinct index hindex stanza hstanza
    obtain ⟨res, hres, -⟩ := hback.packages hdistinct
    have hread := (packages_eq_ok_iff.mp hres).1 index.file (List.mem_map_of_mem hindex)
    have hmem : stanza.dict ∈ (indexread index.file.lines).1 := by
      rw [hback.dictionaries index hindex]
      exact List.mem_map_of_mem hstanza
    obtain ⟨new, hnew⟩ := hread.entry_ok _ hmem
    have hfeed := (entry_eq_ok_iff.mp hnew).1
    rwa [stanza.keys_dict] at hfeed
  · rintro ⟨hclosed, hfeed⟩
    have hread (index : WrittenIndex) (hindex : index ∈ indexes) :
        indexread index.file.lines = (index.stanzas.map Stanza.dict, none) :=
      (indexread_iff _).mpr (hclosed index hindex)
    exact ⟨hread, fun hdistinct => packages_of_distinct hread (hfeed hdistinct) hdistinct⟩

/-- For an index file without packages a package without attributes is yielded, and then
there is no index of all packages. A blank line at the end of a description makes two
packages of one. -/
theorem empty_index_yields_package :
    ¬ReadsBack [emptyIndex] ∧
      indexread emptyIndex.file.lines = ([[]], none) ∧
      packages [emptyIndex.file] = .error (.missingKey "Package".toList) ∧
      indexread (readlines (indexText 1 [blankEnd])) =
        ([[("Package".toList, "a".toList), ("Description".toList, "b".toList)],
          [("Version".toList, "1".toList)]], none) := by
  refine ⟨fun hback => ?_, rfl, rfl, by decide⟩
  exact absurd (hback.dictionaries emptyIndex List.mem_cons_self) (by decide)

end TurrisBuild.CheckPackages
