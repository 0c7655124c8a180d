import ReachingWrites.Text.Describe

/-!
# Texts on one line

A listing is read by lines, so a line must not hold a newline. Whoever makes a procedure chooses the
names in it, and a name may hold any character; it comes into a listing between quotes, where every
newline is written as two other characters. So every text that shows a value by its structure is on
one line, and lines that have been joined can be taken apart again.
-/

set_option autoImplicit false

namespace ReachingWrites.Text

/-- The text has no newline. -/
def OneLine (s : String) : Prop := '\n' ∉ s.toList

instance (s : String) : Decidable (OneLine s) := inferInstanceAs (Decidable (¬_))

/-! ## Texts made of others -/

/-- Two texts of one line make a text of one line. -/
theorem OneLine.append {s t : String} (hs : OneLine s) (ht : OneLine t) : OneLine (s ++ t) := by
  rw [OneLine, String.toList_append, List.mem_append, not_or]
  exact ⟨hs, ht⟩

/-- Texts of one line make a text of one line. -/
theorem oneLine_join {items : List String} (h : ∀ item ∈ items, OneLine item) :
    OneLine (String.join items) := by
  rw [OneLine, String.toList_join, List.mem_flatMap]
  rintro ⟨item, hitem, hmem⟩
  exact h item hitem hmem

/-- A list of texts of one line is a text of one line. -/
theorem oneLine_commaList {items : List String} (h : ∀ item ∈ items, OneLine item) :
    OneLine (commaList items) := by
  unfold commaList
  induction items with
  | nil => decide
  | cons item items ih =>
    have hitem := h item List.mem_cons_self
    have hitems := ih fun other hmem => h other (List.mem_cons_of_mem item hmem)
    by_cases hnil : items = []
    · rw [hnil, String.intercalate_singleton]
      exact hitem
    · rw [String.intercalate_cons_of_ne_nil hnil]
      exact (hitem.append (by decide)).append hitems

/-- A tuple of texts of one line is a text of one line. -/
theorem oneLine_tuple {name : String} {parts : List String} (hname : OneLine name)
    (hparts : ∀ part ∈ parts, OneLine part) : OneLine (tuple name parts) :=
  ((hname.append (by decide)).append (oneLine_commaList hparts)).append (by decide)

/-- A record of texts of one line is a text of one line. -/
theorem oneLine_record {name : String} {fields : List (String × String)} (hname : OneLine name)
    (hfields : ∀ field ∈ fields, OneLine field.1 ∧ OneLine field.2) :
    OneLine (record name fields) := by
  have hlabelled : OneLine (labelled fields) := by
    refine oneLine_commaList fun item hitem => ?_
    obtain ⟨field, hfield, rfl⟩ := List.mem_map.mp hitem
    obtain ⟨hlabel, htext⟩ := hfields field hfield
    exact (hlabel.append (by decide)).append htext
  exact ((hname.append (by decide)).append hlabelled).append (by decide)

/-- A set of texts of one line is a text of one line. -/
theorem oneLine_set {items : List String} (h : ∀ item ∈ items, OneLine item) :
    OneLine (set items) :=
  (OneLine.append (by decide) (oneLine_commaList h)).append (by decide)

/-! ## Numbers and quoted strings -/

/-- A number is written by its decimal digits. -/
theorem toList_toString_nat (n : Nat) : (toString n).toList = Nat.toDigits 10 n := by
  rw [Nat.toString_eq_repr, Nat.toList_repr]

private theorem newline_notMem_toDigits {base : Nat} (hbase : 1 < base) (n : Nat) :
    '\n' ∉ Nat.toDigits base n := by
  have hdigit : ∀ d, '\n' ≠ Nat.digitChar d := fun d => (Nat.digitChar_ne '\n' (by decide)).symm
  induction n using Nat.strongRecOn with
  | ind n ih =>
    rw [Nat.toDigits_eq_if hbase]
    split
    next =>
      rw [List.mem_singleton]
      exact hdigit n
    next hle =>
      have hsmaller : n / base < n := Nat.div_lt_self (by omega) hbase
      rw [List.mem_append, List.mem_singleton, not_or]
      exact ⟨ih _ hsmaller, hdigit _⟩

/-- A number is a text of one line. -/
theorem oneLine_toString_nat (n : Nat) : OneLine (toString n) := by
  rw [OneLine, toList_toString_nat]
  exact newline_notMem_toDigits (by decide) n

/-- No character is written with a newline, and a newline is not either. -/
private theorem newline_notMem_escape (c : Char) : '\n' ∉ escape c := by
  unfold escape
  split
  next => decide
  split
  next => decide
  split
  next => decide
  split
  next => decide
  split
  next => decide
  next hnewline =>
    split
    next => decide
    split
    next =>
      rw [List.mem_singleton]
      exact fun h => hnewline h.symm
    next =>
      have hdigits := newline_notMem_toDigits (by decide : 1 < 16) c.toNat
      simp only [List.mem_append, not_or]
      exact ⟨⟨by decide, hdigits⟩, by decide⟩

/-- A quoted string is on one line, whatever it holds. -/
theorem oneLine_quoted (s : String) : OneLine (quoted s) := by
  rw [OneLine, quoted, String.toList_ofList, List.mem_cons, List.mem_append, List.mem_flatMap]
  rintro (hquote | ⟨c, -, hmem⟩ | hquote)
  · exact absurd hquote (by decide)
  · exact newline_notMem_escape c hmem
  · exact absurd hquote (by decide)

/-! ## Lines in a row -/

/-- The lines, each ended by a newline. -/
def endLines (lines : List String) : String := String.join (lines.map fun line => line ++ "\n")

private theorem toList_endLines_cons (line : String) (lines : List String) :
    (endLines (line :: lines)).toList = line.toList ++ '\n' :: (endLines lines).toList := by
  simp [endLines, String.join_cons]

/-- Lines in a row are taken apart again at the newlines. -/
theorem splitOn_endLines {lines : List String} (h : ∀ line ∈ lines, OneLine line) :
    (endLines lines).toList.splitOn '\n' = lines.map String.toList ++ [[]] := by
  induction lines with
  | nil => rfl
  | cons line lines ih =>
    have hline := h line List.mem_cons_self
    have hlines := ih fun other hmem => h other (List.mem_cons_of_mem line hmem)
    rw [toList_endLines_cons, List.splitOn_append_cons_self_of_not_mem hline, hlines]
    rfl

/-- There are as many newlines as lines. -/
theorem count_endLines {lines : List String} (h : ∀ line ∈ lines, OneLine line) :
    (endLines lines).toList.count '\n' = lines.length := by
  induction lines with
  | nil => rfl
  | cons line lines ih =>
    have hline := h line List.mem_cons_self
    have hlines := ih fun other hmem => h other (List.mem_cons_of_mem line hmem)
    rw [toList_endLines_cons, List.count_append, List.count_eq_zero.mpr hline,
      List.count_cons_self, hlines, Nat.zero_add, List.length_cons]

/-- So lines on one line each are known from the text. -/
theorem endLines_inj {lines lines' : List String} (h : ∀ line ∈ lines, OneLine line)
    (h' : ∀ line ∈ lines', OneLine line) (same : endLines lines = endLines lines') :
    lines = lines' := by
  have hsplit := splitOn_endLines h
  rw [same, splitOn_endLines h'] at hsplit
  have hmap := List.append_cancel_right hsplit
  exact ((List.map_inj_right fun _ _ => String.toList_injective).mp hmap).symm

end ReachingWrites.Text
