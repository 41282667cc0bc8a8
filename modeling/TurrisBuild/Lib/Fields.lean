import Mathlib.Data.List.Induction
import Mathlib.Data.List.TakeWhile
import Mathlib.Tactic.Common

/-!
# Blank-separated fields

Shells and line-oriented tools split a line at runs of blanks, ignoring leading
and trailing ones. This file defines that splitting on lists of characters,
together with the lemmas that say how it acts on a line that is extended on the
right or rebuilt from its fields.
-/

namespace Fields

/-- The characters that separate fields inside a line. -/
def isBlank (c : Char) : Bool := c == ' ' || c == '\t'

/-- The fields of a line. -/
def fields (s : List Char) : List (List Char) :=
  (s.splitOnP isBlank).filter (fun w => !w.isEmpty)

/-- A word is nonempty and free of blanks. -/
def IsWord (w : List Char) : Prop := w ≠ [] ∧ ∀ c ∈ w, isBlank c = false

instance (w : List Char) : Decidable (IsWord w) :=
  haveI := List.decidableBAll (fun c => isBlank c = false) w
  inferInstanceAs (Decidable (_ ∧ _))

/-- An empty line has no columns. -/
@[simp] theorem fields_nil : fields [] = [] := rfl

/-- A line splits at every blank. -/
theorem fields_append_cons (s t : List Char) {b : Char} (hb : isBlank b = true) :
    fields (s ++ b :: t) = fields s ++ fields t := by
  simp [fields, List.splitOnP_append_cons s t hb]

/-- Text without blanks is at most one field. -/
theorem fields_of_noBlank {w : List Char} (hw : ∀ c ∈ w, isBlank c = false) :
    fields w = if w = [] then [] else [w] := by
  unfold fields
  rw [List.splitOnP_eq_singleton hw]
  cases w <;> simp

/-- A word is its own single field. -/
theorem IsWord.fields_eq {w : List Char} (hw : IsWord w) : fields w = [w] := by
  rw [fields_of_noBlank hw.2, if_neg hw.1]

/-- Blanks in front of a line do not count. -/
theorem fields_dropWhile (s : List Char) : fields (s.dropWhile isBlank) = fields s := by
  induction s with
  | nil => rfl
  | cons c s ih =>
    cases hc : isBlank c with
    | true =>
      rw [List.dropWhile_cons_of_pos hc, ih]
      exact (fields_append_cons [] s hc).symm
    | false => rw [List.dropWhile_cons_of_neg (by simp [hc])]

/-- The next word of a line and what follows it, as `read` takes them. -/
def nextWord (s : List Char) : List Char × List Char :=
  let s := s.dropWhile isBlank
  (s.takeWhile (!isBlank ·), s.dropWhile (!isBlank ·))

/-- The next word is the first field, and the other fields follow it. -/
theorem nextWord_of_fields {s w : List Char} {ws : List (List Char)} (hs : fields s = w :: ws) :
    (nextWord s).1 = w ∧ fields (nextWord s).2 = ws := by
  have hword : ∀ c ∈ (nextWord s).1, isBlank c = false := by
    intro c hc
    simpa using List.mem_takeWhile_imp hc
  have hsplit : (nextWord s).1 ++ (nextWord s).2 = s.dropWhile isBlank :=
    List.takeWhile_append_dropWhile
  have hne : (nextWord s).1 ≠ [] := by
    intro hnil
    have hfirst := List.head?_dropWhile_not isBlank s
    cases hrest : s.dropWhile isBlank with
    | nil =>
      rw [← fields_dropWhile, hrest, fields_nil] at hs
      cases hs
    | cons c t =>
      have hc : isBlank c = false := by simpa [hrest] using hfirst
      simp [nextWord, hrest, hc] at hnil
  rw [← fields_dropWhile, ← hsplit] at hs
  cases hrest : (nextWord s).2 with
  | nil =>
    rw [hrest, List.append_nil, fields_of_noBlank hword, if_neg hne] at hs
    simpa using hs
  | cons b t =>
    -- What follows a word begins with a blank.
    have hb : isBlank b = true := by
      have hhead := List.head?_dropWhile_not (!isBlank ·) (s.dropWhile isBlank)
      have hsnd : (s.dropWhile isBlank).dropWhile (!isBlank ·) = b :: t := hrest
      simpa [hsnd] using hhead
    rw [hrest, fields_append_cons _ _ hb, fields_of_noBlank hword, if_neg hne] at hs
    have htail : fields (b :: t) = fields t := by
      simpa using fields_append_cons [] t hb
    rw [htail]
    simpa using hs

/-- A line ends in text without blanks, which is the whole line or follows a blank. -/
theorem exists_last_segment (s : List Char) :
    (∀ c ∈ s, isBlank c = false) ∨
      ∃ t b w, s = t ++ b :: w ∧ isBlank b = true ∧ ∀ c ∈ w, isBlank c = false := by
  induction s with
  | nil => exact .inl (by simp)
  | cons c s ih =>
    rcases ih with hs | ⟨t, b, w, rfl, hb, hw⟩
    · cases hc : isBlank c with
      | true => exact .inr ⟨[], c, s, rfl, hc, hs⟩
      | false => exact .inl (by simpa [hc] using hs)
    · exact .inr ⟨c :: t, b, w, rfl, hb, hw⟩

/-- The line is empty or ends in a blank. -/
def EndsBlank (s : List Char) : Prop := ∀ c ∈ s.getLast?, isBlank c = true

instance (s : List Char) : Decidable (EndsBlank s) :=
  decidable_of_iff (s.getLast?.all isBlank = true) (by cases h : s.getLast? <;> simp [EndsBlank, h])

/-- Text that follows a blank or starts the line becomes a field of its own. -/
theorem fields_append_of_endsBlank {s w : List Char} (hs : EndsBlank s) (hw : IsWord w) :
    fields (s ++ w) = fields s ++ [w] := by
  rcases s.eq_nil_or_concat with rfl | ⟨t, b, rfl⟩
  · simp [hw.fields_eq]
  · have hb : isBlank b = true := hs b (by simp)
    rw [List.concat_eq_append, List.append_assoc, List.singleton_append,
      fields_append_cons _ _ hb, hw.fields_eq, fields_append_cons _ _ hb, fields_nil,
      List.append_nil]

/-- Text that follows a nonblank character extends the last field. -/
theorem fields_append_of_not_endsBlank {s x : List Char} (hs : ¬EndsBlank s)
    (hx : ∀ c ∈ x, isBlank c = false) :
    ∃ ws w, fields s = ws ++ [w] ∧ fields (s ++ x) = ws ++ [w ++ x] := by
  have hword {w : List Char} (hne : w ≠ []) (hw : ∀ c ∈ w, isBlank c = false) :
      fields w = [w] ∧ fields (w ++ x) = [w ++ x] := by
    refine ⟨IsWord.fields_eq ⟨hne, hw⟩, IsWord.fields_eq ⟨by simp [hne], ?_⟩⟩
    intro c hc
    rcases List.mem_append.mp hc with hc | hc
    · exact hw c hc
    · exact hx c hc
  rcases exists_last_segment s with hnb | ⟨t, b, w, rfl, hb, hw⟩
  · have hne : s ≠ [] := by
      rintro rfl
      exact hs (by simp [EndsBlank])
    exact ⟨[], s, by simpa using (hword hne hnb).1, by simpa using (hword hne hnb).2⟩
  · have hne : w ≠ [] := by
      rintro rfl
      exact hs (by simpa [EndsBlank] using hb)
    refine ⟨fields t, w, ?_, ?_⟩
    · rw [fields_append_cons _ _ hb, (hword hne hw).1]
    · rw [List.append_assoc, List.cons_append, fields_append_cons _ _ hb, (hword hne hw).2]

/-- Every field of a line is a word. -/
theorem isWord_of_mem_fields {s w : List Char} (hw : w ∈ fields s) : IsWord w := by
  induction s using List.reverseRecOn generalizing w with
  | nil => simp at hw
  | append_singleton s c ih =>
    cases hc : isBlank c with
    | true =>
      rw [fields_append_cons s [] hc, fields_nil, List.append_nil] at hw
      exact ih hw
    | false =>
      have hcw : IsWord [c] := ⟨by simp, by simpa using hc⟩
      by_cases hs : EndsBlank s
      · rw [fields_append_of_endsBlank hs hcw] at hw
        rcases List.mem_append.mp hw with hw | hw
        · exact ih hw
        · rwa [List.mem_singleton.mp hw]
      · obtain ⟨ws, v, hfields, hext⟩ := fields_append_of_not_endsBlank hs hcw.2
        rw [hext] at hw
        rcases List.mem_append.mp hw with hw | hw
        · exact ih (by simp [hfields, hw])
        · have hv : IsWord v := ih (by simp [hfields])
          rw [List.mem_singleton.mp hw]
          refine ⟨by simp, ?_⟩
          intro d hd
          rcases List.mem_append.mp hd with hd | hd
          · exact hv.2 d hd
          · exact hcw.2 d hd

/-- A line rebuilt from words with single spaces has these words as fields. -/
theorem fields_intercalate {ws : List (List Char)} (hws : ∀ w ∈ ws, IsWord w) :
    fields (List.intercalate [' '] ws) = ws := by
  induction ws with
  | nil => rfl
  | cons w ws ih =>
    have hw := hws w List.mem_cons_self
    cases ws with
    | nil => simpa using hw.fields_eq
    | cons v vs =>
      have hrest := ih (fun u hu => hws u (List.mem_cons_of_mem _ hu))
      rw [List.intercalate_cons_cons, List.append_assoc, List.singleton_append,
        fields_append_cons _ _ rfl, hw.fields_eq, hrest, List.singleton_append]

/-- A line rebuilt from words does not end in a blank. -/
theorem not_endsBlank_intercalate {ws : List (List Char)} (hne : ws ≠ [])
    (hws : ∀ w ∈ ws, IsWord w) : ¬EndsBlank (List.intercalate [' '] ws) := by
  induction ws with
  | nil => exact absurd rfl hne
  | cons w ws ih =>
    have hw := hws w List.mem_cons_self
    cases ws with
    | nil =>
      intro hends
      have hlast := List.getLast?_eq_some_getLast hw.1
      have hblank := hends _ (by simpa using hlast)
      rw [hw.2 _ (List.getLast_mem hw.1)] at hblank
      cases hblank
    | cons v vs =>
      have hrest := ih (by simp) (fun u hu => hws u (List.mem_cons_of_mem _ hu))
      obtain ⟨c, hc⟩ : ∃ c, (List.intercalate [' '] (v :: vs)).getLast? = some c := by
        cases hlast : (List.intercalate [' '] (v :: vs)).getLast? with
        | none => exact absurd (by simp [EndsBlank, hlast]) hrest
        | some c => exact ⟨c, rfl⟩
      rw [List.intercalate_cons_cons]
      rwa [EndsBlank, List.getLast?_append, hc, Option.some_or, ← hc]

end Fields
