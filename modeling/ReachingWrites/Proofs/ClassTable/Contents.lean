import Mathlib.Data.List.Induction
import ReachingWrites.Proofs.ClassTable.Nearest

/-!
# What a class table holds

Of a table, a resolution sees the superclass of each class and the fields that are declared on it, and
nothing else: not the order of the classes, nor whether the table knows a class that has neither.
Tables with the same contents resolve every reference alike.

The contents follow from the edits that a table is made by. A class has the superclass of the last
edit that added it, and a field is declared if some edit declares it. Both are so whatever the edits
do to other classes and in whatever order they come.
-/

set_option autoImplicit false

namespace ReachingWrites

namespace ClassTable

/-- What a table holds of a class. A class that it does not know is one with nothing. -/
def entry (t : ClassTable) (name : String) : ClassEntry := (t.classes.find? name).getD {}

private theorem superclass?_eq (t : ClassTable) (name : String) :
    t.superclass? name = (t.entry name).superclass := by
  unfold superclass? entry
  cases t.classes.find? name with
  | none => rfl
  | some c => rfl

private theorem declares_iff {t : ClassTable} {name field : String} :
    t.Declares name field ↔ field ∈ (t.entry name).fields := by
  unfold Declares entry
  cases t.classes.find? name with
  | none => simp
  | some c => simp [ClassEntry.declares]

/-! ## What one edit changes -/

section Edits

variable (t : ClassTable) (name field : String) (above : Option String) (other f : String)

private theorem entry_addClass : (t.addClass name above).entry other =
    if name = other then { t.entry other with superclass := above } else t.entry other := by
  unfold entry addClass
  rw [Table.find?_alter]
  by_cases hother : name = other
  · subst hother
    rw [if_pos rfl, if_pos rfl, Option.getD_some]
  · rw [if_neg hother, if_neg hother]

private theorem entry_declareField : (t.declareField name field).entry other =
    if name = other ∧ field ∉ (t.entry other).fields then
      { t.entry other with fields := (t.entry other).fields ++ [field] }
    else t.entry other := by
  unfold entry declareField
  rw [Table.find?_alter]
  by_cases hother : name = other
  · subst hother
    rw [if_pos rfl, Option.getD_some]
    by_cases hfield : field ∈ ((t.classes.find? name).getD {}).fields
    · simp [ClassEntry.declares, hfield]
    · simp [ClassEntry.declares, hfield]
  · rw [if_neg hother, if_neg (fun h => hother h.1)]

private theorem superclass?_addClass : (t.addClass name above).superclass? other =
    if name = other then above else t.superclass? other := by
  rw [superclass?_eq, superclass?_eq, entry_addClass]
  split
  · rfl
  · rfl

/-- Declaring a field leaves every superclass as it is. -/
private theorem superclass?_declareField :
    (t.declareField name field).superclass? other = t.superclass? other := by
  rw [superclass?_eq, superclass?_eq, entry_declareField]
  split
  · rfl
  · rfl

/-- Adding a class, or adding it again, leaves every declaration as it is. -/
private theorem declares_addClass :
    (t.addClass name above).Declares other f ↔ t.Declares other f := by
  rw [declares_iff, declares_iff, entry_addClass]
  split
  · rfl
  · rfl

private theorem declares_declareField : (t.declareField name field).Declares other f ↔
    t.Declares other f ∨ (name = other ∧ field = f) := by
  rw [declares_iff, declares_iff, entry_declareField]
  split
  next h => simp [h.1, eq_comm]
  next h =>
    refine (or_iff_left_of_imp ?_).symm
    rintro ⟨rfl, rfl⟩
    exact Decidable.not_not.mp fun hfield => h ⟨rfl, hfield⟩

end Edits

/-! ## Tables with the same contents -/

/-- Two tables give every class the same superclass and the same declared fields. -/
structure SameContents (t t' : ClassTable) : Prop where
  superclass : ∀ name, t.superclass? name = t'.superclass? name
  declares : ∀ name field, t.Declares name field ↔ t'.Declares name field

section SameContents

variable {t t' : ClassTable} (h : t.SameContents t')
include h

/-- Tables of the same contents have the same ancestors. -/
theorem SameContents.ancestor_eq (name : String) (k : Nat) :
    t.ancestor name k = t'.ancestor name k := by
  induction k with
  | zero => rfl
  | succ k ih =>
    show (t.ancestor name k).bind t.superclass? = (t'.ancestor name k).bind t'.superclass?
    rw [ih, funext h.superclass]

/-- Tables of the same contents have the same nearest declarations. -/
theorem SameContents.nearest_iff {r : FieldRef} {k : Nat} {name : String} :
    t.Nearest r k name ↔ t'.Nearest r k name := by
  have hdeclaresAt : ∀ j b, t.DeclaresAt r j b ↔ t'.DeclaresAt r j b := by
    intro j b
    rw [declaresAt_iff, declaresAt_iff, h.ancestor_eq, h.declares]
  constructor
  · intro hnearest
    exact ⟨(hdeclaresAt k name).mp hnearest.declaresAt,
      fun j hj b hb => hnearest.first j hj b ((hdeclaresAt j b).mpr hb)⟩
  · intro hnearest
    exact ⟨(hdeclaresAt k name).mpr hnearest.declaresAt,
      fun j hj b hb => hnearest.first j hj b ((hdeclaresAt j b).mp hb)⟩

/-- Every reference is resolved alike. -/
theorem SameContents.resolve_eq (r : FieldRef) : t.resolve r = t'.resolve r := by
  apply Option.ext
  intro d
  rw [resolve_eq_some_iff, resolve_eq_some_iff]
  simp only [h.nearest_iff]

end SameContents

/-! ## Edits that can be moved or left out -/

section Moved

variable (t : ClassTable)

/-- A field may be declared before its class is added. -/
theorem sameContents_declareField_addClass (name : String) (above : Option String)
    (other field : String) : ((t.declareField other field).addClass name above).SameContents
      ((t.addClass name above).declareField other field) where
  superclass n := by simp only [superclass?_addClass, superclass?_declareField]
  declares n f := by simp only [declares_addClass, declares_declareField]

/-- A class may be linked to before it is added. -/
theorem sameContents_addClass_comm {name other : String} (h : name ≠ other)
    (above above' : Option String) : ((t.addClass name above).addClass other above').SameContents
      ((t.addClass other above').addClass name above) where
  superclass n := by
    simp only [superclass?_addClass]
    by_cases hn : name = n
    · rw [if_pos hn, if_pos hn, if_neg (fun hother => h (hn.trans hother.symm))]
    · rw [if_neg hn, if_neg hn]
  declares n f := by simp only [declares_addClass]

variable {t}

/-- A class that has no superclass may be added without one. -/
theorem sameContents_addClass_none {name : String} (h : t.superclass? name = none) :
    (t.addClass name none).SameContents t where
  superclass n := by
    rw [superclass?_addClass]
    split
    next hn => rw [← hn, h]
    next => rfl
  declares n f := t.declares_addClass name none n f

end Moved

/-! ## Tables made by edits -/

inductive Edit where
  | addClass (name : String) (above : Option String)
  | declareField (name field : String)
  deriving DecidableEq

def Edit.apply (t : ClassTable) : Edit → ClassTable
  | .addClass name above => t.addClass name above
  | .declareField name field => t.declareField name field

/-- The table that is made by edits, one after another. -/
def build (edits : List Edit) : ClassTable := edits.foldl Edit.apply {}

/-- What an edit says of the superclass of a class, if it says something. -/
def Edit.superclassOf? (name : String) : Edit → Option (Option String)
  | .addClass added above => if added = name then some above else none
  | .declareField _ _ => none

/-- The superclass that a class has in the last edit that adds it; none if there is no such edit. -/
def lastSuperclass (edits : List Edit) (name : String) : Option String :=
  (edits.filterMap (Edit.superclassOf? name)).getLast?.join

private theorem build_concat (edits : List Edit) (edit : Edit) :
    build (edits ++ [edit]) = edit.apply (build edits) := by
  rw [build, List.foldl_append]
  rfl

private theorem lastSuperclass_concat (edits : List Edit) (edit : Edit) (name : String) :
    lastSuperclass (edits ++ [edit]) name =
      (edit.superclassOf? name).getD (lastSuperclass edits name) := by
  unfold lastSuperclass
  rw [List.filterMap_append, List.filterMap_cons, List.filterMap_nil]
  cases edit.superclassOf? name with
  | none => rw [List.append_nil, Option.getD_none]
  | some above => rw [List.getLast?_concat, Option.getD_some, Option.join_some]

/-- A built table knows of each class the superclass in the last edit that adds it. -/
theorem superclass?_build (edits : List Edit) (name : String) :
    (build edits).superclass? name = lastSuperclass edits name := by
  induction edits using List.reverseRecOn with
  | nil => rfl
  | append_singleton edits edit ih =>
    rw [build_concat, lastSuperclass_concat]
    cases edit with
    | addClass added above =>
      rw [Edit.apply, superclass?_addClass, ih, Edit.superclassOf?]
      split
      · rfl
      · rfl
    | declareField declaring field =>
      rw [Edit.apply, superclass?_declareField, ih]
      rfl

/-- A built table knows of each class the fields that some edit declares. -/
theorem declares_build (edits : List Edit) (name field : String) :
    (build edits).Declares name field ↔ Edit.declareField name field ∈ edits := by
  induction edits using List.reverseRecOn with
  | nil => simp [build, Declares, Table.find?]
  | append_singleton edits edit ih =>
    rw [build_concat, List.mem_append, List.mem_singleton, ← ih]
    cases edit with
    | addClass added above =>
      rw [Edit.apply, declares_addClass]
      exact (or_iff_left (by simp)).symm
    | declareField declaring declared =>
      rw [Edit.apply, declares_declareField, Edit.declareField.injEq]
      simp only [eq_comm]

/-- Two sequences of edits give every class the same superclass in the end and declare the same
fields. -/
structure Edit.Alike (edits edits' : List Edit) : Prop where
  superclass : ∀ name, lastSuperclass edits name = lastSuperclass edits' name
  declared : ∀ name field, Edit.declareField name field ∈ edits ↔
    Edit.declareField name field ∈ edits'

private theorem Edit.Alike.sameContents {edits edits' : List Edit} (h : Edit.Alike edits edits') :
    (build edits).SameContents (build edits') where
  superclass name := by rw [superclass?_build, superclass?_build, h.superclass]
  declares name field := by rw [declares_build, declares_build, h.declared]

/-- What a reference denotes does not depend on how a table was made: edits that end in the same
superclasses and declare the same fields make tables that resolve alike. In any table a class that is
added again keeps its declared fields, and a field that is declared changes no superclass. So a class
may be added before or after fields are declared on it, and before or after another class is linked
to it; and to add a class that has nothing, or to take a superclass away where there is none, makes no
difference. -/
theorem resolve_by_contents :
    (∀ edits edits', Edit.Alike edits edits' → ∀ r, (build edits).resolve r =
      (build edits').resolve r) ∧
    (∀ (t : ClassTable) name above other field,
      (t.addClass name above).Declares other field ↔ t.Declares other field) ∧
    (∀ (t : ClassTable) name field other,
      (t.declareField name field).superclass? other = t.superclass? other) ∧
    (∀ (t : ClassTable) name above other field r,
      ((t.declareField other field).addClass name above).resolve r =
        ((t.addClass name above).declareField other field).resolve r) ∧
    (∀ (t : ClassTable) name above other above' r, name ≠ other →
      ((t.addClass name above).addClass other above').resolve r =
        ((t.addClass other above').addClass name above).resolve r) ∧
    ∀ (t : ClassTable) name r, t.superclass? name = none →
      (t.addClass name none).resolve r = t.resolve r := by
  refine ⟨fun _ _ h => h.sameContents.resolve_eq, ?_, superclass?_declareField, ?_, ?_, ?_⟩
  · intro t name above other field
    exact t.declares_addClass name above other field
  · intro t name above other field
    exact (t.sameContents_declareField_addClass name above other field).resolve_eq
  · intro t name above other above' r hother
    exact (t.sameContents_addClass_comm hother above above').resolve_eq r
  · intro t name r hnone
    exact (sameContents_addClass_none hnone).resolve_eq r

/-- A field that is declared before its class is added, and one that is declared twice after a link to
its class has been changed. -/
theorem shuffledEdits_resolve :
    let edits : List Edit :=
      [.declareField "Base" "count", .addClass "Leaf" (some "Base"), .addClass "Base" none]
    let edits' : List Edit :=
      [.addClass "Leaf" (some "Other"), .addClass "Base" (some "Leaf"), .addClass "Other" none,
        .addClass "Leaf" (some "Base"), .declareField "Base" "count", .addClass "Base" none,
        .declareField "Base" "count"]
    Edit.Alike edits edits' ∧
      (build edits).resolve ⟨"Leaf", "count"⟩ = (build edits').resolve ⟨"Leaf", "count"⟩ ∧
      (build edits).resolve ⟨"Leaf", "count"⟩ = some ⟨"Base", "count"⟩ ∧
      ((build edits).addClass "Other" none).resolve ⟨"Leaf", "count"⟩ =
        some ⟨"Base", "count"⟩ := by
  intro edits edits'
  have halike : Edit.Alike edits edits' := by
    constructor
    · intro name
      by_cases hleaf : "Leaf" = name
      · subst hleaf
        decide
      by_cases hbase : "Base" = name
      · subst hbase
        decide
      by_cases hother : "Other" = name
      · subst hother
        decide
      simp only [edits, edits', lastSuperclass, List.filterMap_cons, Edit.superclassOf?, if_neg hleaf,
        if_neg hbase, if_neg hother]
    · intro name field
      simp [edits, edits']
  obtain ⟨hbuild, -, -, -, -, hnothing⟩ := resolve_by_contents
  have hcount : (build edits).resolve ⟨"Leaf", "count"⟩ = some ⟨"Base", "count"⟩ := by
    decide +kernel
  have hother : (build edits).superclass? "Other" = none := by decide +kernel
  exact ⟨halike, hbuild _ _ halike _, hcount, (hnothing _ _ _ hother).trans hcount⟩

end ClassTable

end ReachingWrites
