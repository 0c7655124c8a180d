import Mathlib.Data.List.Basic
import Mathlib.Data.List.Induction
import ReachingWrites.Proofs.Failure

/-!
# Repeated elements

Several parts of the program go through a list whose elements may repeat, and look out for what they
have met already. Such a fold comes to the same when the list names each element only once, where it
comes first. `Absorbs` says of a step what is needed: once an element is done it stays done, and to meet
it again changes nothing.
-/

set_option autoImplicit false

namespace ReachingWrites

variable {ε α γ δ : Type}

/-! ## The first occurrences -/

section First

variable [BEq γ] [LawfulBEq γ] [BEq δ] [LawfulBEq δ]

/-- An element at the end of a list is a first occurrence if the list does not have it. -/
theorem eraseDups_concat (l : List γ) (x : γ) :
    (l ++ [x]).eraseDups = if x ∈ l then l.eraseDups else l.eraseDups ++ [x] := by
  rw [List.eraseDups_append, List.removeAll]
  by_cases hx : x ∈ l <;> simp [hx, List.eraseDups_cons]

/-- An injective function keeps the first occurrences. -/
theorem eraseDups_map {f : γ → δ} (hf : Function.Injective f) (l : List γ) :
    (l.map f).eraseDups = l.eraseDups.map f := by
  induction l using List.reverseRecOn with
  | nil => rfl
  | append_singleton l x ih =>
    simp only [List.map_append, List.map_singleton, eraseDups_concat, ih,
      List.mem_map_of_injective hf, apply_ite (List.map f)]

/-- The first occurrences in two lists without a common element are those of each. -/
theorem eraseDups_append_of_disjoint {l l' : List γ} (h : ∀ x ∈ l', x ∉ l) :
    (l ++ l').eraseDups = l.eraseDups ++ l'.eraseDups := by
  have hrest : l'.removeAll l = l' := by
    refine List.filter_eq_self.mpr fun x hx => ?_
    simpa using h x hx
  rw [List.eraseDups_append, hrest]

end First

/-! ## Steps that look out for repetitions -/

/-- A step that does nothing for an element that has been done. -/
structure Absorbs (f : α → γ → Except ε α) (Done : α → γ → Prop) : Prop where
  /-- After its step, an element is done. -/
  done {a b : α} {x : γ} : f a x = .ok b → Done b x
  /-- What is done stays done. -/
  kept {a b : α} {x y : γ} : Done a x → f a y = .ok b → Done b x
  /-- The step for an element that is done changes nothing. -/
  skip {a : α} {x : γ} : Done a x → f a x = .ok a

/-- All elements of a list are done after it. -/
theorem Absorbs.done_of_mem {f : α → γ → Except ε α} {Done : α → γ → Prop} (h : Absorbs f Done)
    {l : List γ} {a b : α} (hl : l.foldlM f a = .ok b) {x : γ} (hx : x ∈ l) : Done b x := by
  obtain ⟨before, after, rfl⟩ := List.append_of_mem hx
  rw [List.foldlM_append] at hl
  obtain ⟨c, -, hl⟩ := bind_eq_ok.mp hl
  obtain ⟨d, hd, hl⟩ := foldlM_cons_eq_ok.mp hl
  exact foldlM_preserves (P := (Done · x)) (fun _ _ _ hdone => h.kept hdone) (h.done hd) hl

variable [BEq γ] [LawfulBEq γ]

/-- A list and its first occurrences lead to the same, or fail alike. -/
theorem Absorbs.foldlM_eraseDups {f : α → γ → Except ε α} {Done : α → γ → Prop} (h : Absorbs f Done)
    (l : List γ) (a : α) : l.eraseDups.foldlM f a = l.foldlM f a := by
  induction l using List.reverseRecOn with
  | nil => rfl
  | append_singleton l x ih =>
    rw [eraseDups_concat, List.foldlM_append]
    split
    next hx =>
      rw [ih]
      cases hl : l.foldlM f a with
      | error e => rfl
      | ok b =>
        have hskip : [x].foldlM f b = .ok b :=
          foldlM_cons_eq_ok.mpr ⟨b, h.skip (h.done_of_mem hl hx), foldlM_nil_eq_ok.mpr rfl⟩
        exact (bind_eq_ok.mpr ⟨b, rfl, hskip⟩).symm
    next => rw [List.foldlM_append, ih]

/-- The same of steps that cannot fail. -/
theorem foldl_eraseDups {f : α → γ → α} (Done : α → γ → Prop) (done : ∀ a x, Done (f a x) x)
    (kept : ∀ {a x} y, Done a x → Done (f a y) x) (skip : ∀ {a x}, Done a x → f a x = a) (l : List γ)
    (a : α) : l.eraseDups.foldl f a = l.foldl f a := by
  have habsorbs : Absorbs (fun a x => (pure (f a x) : Except Empty α)) Done := by
    refine ⟨?_, ?_, ?_⟩
    · intro a b x hb
      cases hb
      exact done a x
    · intro a b x y hx hb
      cases hb
      exact kept y hx
    · intro a x hx
      rw [skip hx]
      rfl
  have hsame := habsorbs.foldlM_eraseDups l a
  rw [List.foldlM_pure, List.foldlM_pure] at hsame
  exact Except.ok.inj hsame

end ReachingWrites
