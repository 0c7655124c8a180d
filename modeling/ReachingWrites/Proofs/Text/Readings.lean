/-!
# Texts with one reading

A text that is made of parts can be taken apart in one way only if it shows where a part ends. Here a
part ends where its run of characters ends: a number ends at the first character that is no digit, an
item of a list ends at the first character of the separator, and a paragraph ends before the next line
that can head one.
-/

set_option autoImplicit false

namespace ReachingWrites.Text

variable {β : Type}

/-! ## Runs -/

/-- Where the elements that satisfy `q` end, a list is taken apart in one way. -/
private theorem append_inj_of_run {q : β → Bool} {run run' rest rest' : List β}
    (same : run ++ rest = run' ++ rest')
    (hrun : ∀ x ∈ run, q x = true) (hrest : ∀ x ∈ rest.head?, q x = false)
    (hrun' : ∀ x ∈ run', q x = true) (hrest' : ∀ x ∈ rest'.head?, q x = false) :
    run = run' ∧ rest = rest' := by
  have htake : ∀ {run rest : List β}, (∀ x ∈ run, q x = true) →
      (∀ x ∈ rest.head?, q x = false) → (run ++ rest).takeWhile q = run := by
    intro run rest hrun hrest
    rw [List.takeWhile_append_of_pos hrun]
    cases rest with
    | nil => exact List.append_nil run
    | cons x rest =>
      rw [List.takeWhile_cons_of_neg (by simp [hrest x rfl])]
      exact List.append_nil run
  have hsame : run = run' := by
    rw [← htake hrun hrest, same, htake hrun' hrest']
  rw [hsame] at same
  exact ⟨hsame, List.append_cancel_left same⟩

/-- A number is known from its digits. -/
theorem toDigits_inj {m n : Nat} (same : Nat.toDigits 10 m = Nat.toDigits 10 n) : m = n := by
  calc m = Nat.ofDigitChars 10 (Nat.toDigits 10 m) 0 := Nat.ofDigitChars_ten_toDigits.symm
    _ = Nat.ofDigitChars 10 (Nat.toDigits 10 n) 0 := by rw [same]
    _ = n := Nat.ofDigitChars_ten_toDigits

/-- A decimal number has digits only. -/
theorem notMem_toDigits {c : Char} (h : c.isDigit = false) (n : Nat) : c ∉ Nat.toDigits 10 n := by
  intro hmem
  have hdigit := Nat.isDigit_of_mem_toDigits (by decide) (by decide) hmem
  rw [h] at hdigit
  cases hdigit

/-- A number is read up to the first character that is no digit. -/
theorem toDigits_append_inj {m n : Nat} {rest rest' : List Char}
    (same : Nat.toDigits 10 m ++ rest = Nat.toDigits 10 n ++ rest')
    (hrest : ∀ c ∈ rest.head?, c.isDigit = false) (hrest' : ∀ c ∈ rest'.head?, c.isDigit = false) :
    m = n ∧ rest = rest' := by
  have hdigits : ∀ {n : Nat}, ∀ c ∈ Nat.toDigits 10 n, c.isDigit = true := fun c hc =>
    Nat.isDigit_of_mem_toDigits (by decide) (by decide) hc
  obtain ⟨hnumber, htail⟩ := append_inj_of_run same hdigits hrest hdigits hrest'
  exact ⟨toDigits_inj hnumber, htail⟩

/-! ## Paragraphs -/

/-- Paragraphs of a head and a body are known from their lines if no line of a body could be a
head. -/
theorem flatMap_cons_inj (head : β → Bool) {paragraphs paragraphs' : List (β × List β)}
    (h : ∀ p ∈ paragraphs, head p.1 = true ∧ ∀ x ∈ p.2, head x = false)
    (h' : ∀ p ∈ paragraphs', head p.1 = true ∧ ∀ x ∈ p.2, head x = false)
    (same : paragraphs.flatMap (fun p => p.1 :: p.2) = paragraphs'.flatMap fun p => p.1 :: p.2) :
    paragraphs = paragraphs' := by
  -- what follows a body is a head
  have hfollows : ∀ {ps : List (β × List β)},
      (∀ p ∈ ps, head p.1 = true ∧ ∀ x ∈ p.2, head x = false) →
      ∀ x ∈ (ps.flatMap fun p => p.1 :: p.2).head?, (!head x) = false := by
    intro ps hps x hx
    cases ps with
    | nil => cases hx
    | cons p ps =>
      cases hx
      rw [(hps p List.mem_cons_self).1]
      rfl
  induction paragraphs generalizing paragraphs' with
  | nil =>
    cases paragraphs' with
    | nil => rfl
    | cons => cases same
  | cons p ps ih =>
    cases paragraphs' with
    | nil => cases same
    | cons p' ps' =>
      rw [List.flatMap_cons, List.flatMap_cons, List.cons_append, List.cons_append,
        List.cons.injEq] at same
      obtain ⟨hhead, hbodies⟩ := same
      rw [List.forall_mem_cons] at h h'
      obtain ⟨hbody, hrest⟩ := append_inj_of_run hbodies (q := fun x => !head x)
        (fun x hx => by rw [h.1.2 x hx]; rfl) (hfollows h.2)
        (fun x hx => by rw [h'.1.2 x hx]; rfl) (hfollows h'.2)
      rw [Prod.ext hhead hbody, ih h.2 h'.2 hrest]

/-! ## Lists with a separator -/

section Separated

variable {first : Char} {sep : List Char} {items items' : List (List Char)}

/-- Items that do not hold the first character of what stands before each of them are known from the
text. -/
theorem flatMap_append_inj (h : ∀ item ∈ items, first ∉ item) (h' : ∀ item ∈ items', first ∉ item)
    (same : items.flatMap ((first :: sep) ++ ·) = items'.flatMap ((first :: sep) ++ ·)) :
    items = items' := by
  have hinside : ∀ {item : List Char}, first ∉ item → ∀ c ∈ item, (c != first) = true := by
    intro item hitem c hc
    rw [bne_iff_ne]
    exact fun he => hitem (he ▸ hc)
  -- what follows an item is the separator
  have hfollows : ∀ {items : List (List Char)},
      ∀ c ∈ (items.flatMap ((first :: sep) ++ ·)).head?, (c != first) = false := by
    intro items c hc
    cases items with
    | nil => cases hc
    | cons =>
      cases hc
      exact bne_self_eq_false first
  induction items generalizing items' with
  | nil =>
    cases items' with
    | nil => rfl
    | cons => cases same
  | cons item items ih =>
    cases items' with
    | nil => cases same
    | cons item' items' =>
      rw [List.flatMap_cons, List.flatMap_cons, List.append_assoc, List.append_assoc] at same
      rw [List.forall_mem_cons] at h h'
      obtain ⟨hitem, hrest⟩ := append_inj_of_run (List.append_cancel_left same)
        (hinside h.1) hfollows (hinside h'.1) hfollows
      rw [hitem, ih h.2 h'.2 hrest]

/-- A separator before the first item too gives each item a separator before it. -/
private theorem append_intercalate {item : List Char} :
    (first :: sep) ++ (first :: sep).intercalate (item :: items) =
      (item :: items).flatMap ((first :: sep) ++ ·) := by
  induction items generalizing item with
  | nil => simp
  | cons next items ih =>
    rw [List.intercalate_cons_cons, List.flatMap_cons, ← ih, List.append_assoc, List.append_assoc]

/-- Items that are not empty and do not hold the first character of the separator are known from the
text. -/
theorem intercalate_inj (h : ∀ item ∈ items, item ≠ [] ∧ first ∉ item)
    (h' : ∀ item ∈ items', item ≠ [] ∧ first ∉ item)
    (same : (first :: sep).intercalate items = (first :: sep).intercalate items') :
    items = items' := by
  have hempty : ∀ {items : List (List Char)}, (∀ item ∈ items, item ≠ [] ∧ first ∉ item) →
      (first :: sep).intercalate items = [] → items = [] := by
    intro items h hnil
    cases items with
    | nil => rfl
    | cons item items =>
      have hitem : item = [] := by
        cases items with
        | nil => simpa using hnil
        | cons => simp at hnil
      exact absurd hitem (h item List.mem_cons_self).1
  cases items with
  | nil => exact (hempty h' same.symm).symm
  | cons item items =>
    cases items' with
    | nil => exact hempty h same
    | cons item' items' =>
      have hall := congrArg ((first :: sep) ++ ·) same
      rw [append_intercalate, append_intercalate] at hall
      exact flatMap_append_inj (fun item hmem => (h item hmem).2) (fun item hmem => (h' item hmem).2)
        hall

end Separated

end ReachingWrites.Text
