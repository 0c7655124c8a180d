import ReachingWrites.ClassTable
import ReachingWrites.Proofs.Table

/-!
# The nearest declaration

From a class the links of a table lead to its superclass, from there to the superclass of that, and so
on: `ancestor` is the class so many links above. Links may lead to a class that the table does not
know, where they end, and they may go round in a circle, where they never do. `Nearest` says which
declaration a reference denotes: the first one that the links come to.

A resolution does not follow the links for ever. It goes up class by class and stops at a class that
it has looked at before. `Search` is this going up with the names that are looked at: a beginning of
the lineage, in which no class comes twice, and at most one name more, which ends the search. Stopping
at a circle hides no declaration, for the links of a circle lead back to the classes that have been
passed, and none of these declares the field.
-/

set_option autoImplicit false

namespace ReachingWrites

namespace ClassTable

def Knows (t : ClassTable) (name : String) : Prop := ∃ c, t.classes.find? name = some c

/-- The superclass of a class; a class that the table does not know has none. -/
def superclass? (t : ClassTable) (name : String) : Option String :=
  (t.classes.find? name).bind ClassEntry.superclass

def Declares (t : ClassTable) (name field : String) : Prop :=
  ∃ c, t.classes.find? name = some c ∧ c.declares field = true

/-- The class so many superclasses above a class, if the links go so far. -/
def ancestor (t : ClassTable) (name : String) : Nat → Option String
  | 0 => some name
  | k + 1 => (t.ancestor name k).bind t.superclass?

variable {t : ClassTable}

/-! ## Following the links -/

private theorem superclass?_eq_some {name above : String} :
    t.superclass? name = some above ↔
      ∃ c, t.classes.find? name = some c ∧ c.superclass = some above :=
  Option.bind_eq_some_iff

private theorem ancestor_add (t : ClassTable) (name : String) (j k : Nat) :
    t.ancestor name (j + k) = (t.ancestor name j).bind fun below => t.ancestor below k := by
  induction k with
  | zero => exact (Option.bind_fun_some _).symm
  | succ k ih =>
    show (t.ancestor name (j + k)).bind t.superclass? = _
    rw [ih, Option.bind_assoc]
    rfl

/-- Going up by one link and then by `k` more. -/
theorem ancestor_succ (t : ClassTable) (name : String) (k : Nat) :
    t.ancestor name (k + 1) = (t.superclass? name).bind fun above => t.ancestor above k := by
  rw [Nat.add_comm, ancestor_add]
  rfl

/-- On the way up stand all classes in between. -/
theorem exists_ancestor_of_le {name top : String} {j k : Nat} (h : t.ancestor name k = some top)
    (hjk : j ≤ k) :
    ∃ below, t.ancestor name j = some below ∧ t.ancestor below (k - j) = some top := by
  rw [← Nat.add_sub_cancel' hjk, ancestor_add] at h
  exact Option.bind_eq_some_iff.mp h

/-- A class from which a link leads up is known. -/
theorem knows_of_ancestor {name top : String} {k : Nat} (h : t.ancestor name (k + 1) = some top) :
    t.Knows name := by
  rw [ancestor_succ] at h
  obtain ⟨above, habove, -⟩ := Option.bind_eq_some_iff.mp h
  obtain ⟨c, hc, -⟩ := superclass?_eq_some.mp habove
  exact ⟨c, hc⟩

/-! ## The declaration that is denoted -/

/-- The class `k` superclasses above the one that the reference names declares the field, and it and
all classes below it on the way are known. -/
structure DeclaresAt (t : ClassTable) (r : FieldRef) (k : Nat) (name : String) : Prop where
  ancestor : t.ancestor r.className k = some name
  known : ∀ j ≤ k, ∃ below, t.ancestor r.className j = some below ∧ t.Knows below
  declares : t.Declares name r.name

/-- No class nearer to the one that the reference names declares the field. -/
structure Nearest (t : ClassTable) (r : FieldRef) (k : Nat) (name : String) : Prop where
  declaresAt : t.DeclaresAt r k name
  first : ∀ j < k, ∀ below, ¬ t.DeclaresAt r j below

/-- Where the links come to a declaration, all classes on the way are known. -/
theorem declaresAt_iff {r : FieldRef} {k : Nat} {name : String} :
    t.DeclaresAt r k name ↔ t.ancestor r.className k = some name ∧ t.Declares name r.name := by
  constructor
  · intro h
    exact ⟨h.ancestor, h.declares⟩
  · rintro ⟨hancestor, hdeclares⟩
    refine ⟨hancestor, fun j hj => ?_, hdeclares⟩
    obtain ⟨below, hbelow, hup⟩ := exists_ancestor_of_le hancestor hj
    refine ⟨below, hbelow, ?_⟩
    cases hlinks : k - j with
    | zero =>
      rw [hlinks] at hup
      cases hup
      obtain ⟨c, hc, -⟩ := hdeclares
      exact ⟨c, hc⟩
    | succ m =>
      rw [hlinks] at hup
      exact knows_of_ancestor hup

/-- Where the links come to a declaration at all, there is a nearest one. -/
theorem DeclaresAt.exists_nearest {r : FieldRef} {k : Nat} {name : String}
    (h : t.DeclaresAt r k name) : ∃ j top, t.Nearest r j top := by
  induction k using Nat.strongRecOn generalizing name with
  | ind k ih =>
    by_cases hfirst : ∃ j < k, ∃ below, t.DeclaresAt r j below
    · obtain ⟨j, hj, below, hbelow⟩ := hfirst
      exact ih j hj hbelow
    · exact ⟨k, name, h, fun j hj below hbelow => hfirst ⟨j, hj, below, hbelow⟩⟩

/-- From every class on the way the nearest declaration is the same. -/
theorem Nearest.of_ancestor {name field below top : String} {j k : Nat}
    (h : t.Nearest ⟨name, field⟩ k top) (hjk : j ≤ k) (hbelow : t.ancestor name j = some below) :
    t.Nearest ⟨below, field⟩ (k - j) top := by
  have hshift : ∀ i b, t.DeclaresAt ⟨below, field⟩ i b ↔ t.DeclaresAt ⟨name, field⟩ (j + i) b := by
    intro i b
    rw [declaresAt_iff, declaresAt_iff, ancestor_add, hbelow]
    rfl
  constructor
  · rw [hshift, Nat.add_sub_cancel' hjk]
    exact h.declaresAt
  · intro i hi b hb
    exact h.first (j + i) (by omega) b ((hshift i b).mp hb)

/-! ## Going up among the given classes -/

section Ascending

variable {given : Table String ClassEntry} {field name : String} {c : ClassEntry}

private theorem ascend_of_none (h : given.find? name = none) : ascend given name = [] := by
  unfold ascend
  split
  · rfl
  · rename_i c hc
    rw [h] at hc
    cases hc

private theorem ascend_of_some (h : given.find? name = some c) :
    ascend given name = (name, c) :: c.superclass.elim [] (ascend (given.erase name)) := by
  rw [ascend]
  split
  · rename_i hc
    rw [h] at hc
    cases hc
  · rename_i c' hc
    rw [h] at hc
    cases hc
    cases c.superclass with
    | none => rfl
    | some above => rfl

/-- The classes that going up comes to are among the given ones, each with its entry. -/
private theorem find?_of_mem_ascend {e : String × ClassEntry} (h : e ∈ ascend given name) :
    given.find? e.1 = some e.2 := by
  induction given, name using ascend.induct with
  | case1 given name hnone =>
    rw [ascend_of_none hnone] at h
    cases h
  | case2 given name c hsome ih =>
    rw [ascend_of_some hsome] at h
    rcases List.mem_cons.mp h with rfl | h
    · exact hsome
    · cases hsuper : c.superclass with
      | none =>
        rw [hsuper] at h
        cases h
      | some above =>
        rw [hsuper] at h
        have hfind := ih above h
        rw [Table.find?_erase] at hfind
        split at hfind
        · cases hfind
        · exact hfind

/-- Going up comes to no class twice. -/
private theorem nodup_ascend (given : Table String ClassEntry) (name : String) :
    ((ascend given name).map Prod.fst).Nodup := by
  induction given, name using ascend.induct with
  | case1 given name hnone =>
    rw [ascend_of_none hnone]
    exact List.nodup_nil
  | case2 given name c hsome ih =>
    rw [ascend_of_some hsome, List.map_cons]
    cases c.superclass with
    | none => exact List.pairwise_singleton _ _
    | some above =>
      refine List.nodup_cons.mpr ⟨fun hmem => ?_, ih above⟩
      obtain ⟨e, he, heq⟩ := List.mem_map.mp hmem
      have hfind := find?_of_mem_ascend he
      rw [Table.find?_erase, if_pos heq.symm] at hfind
      cases hfind

/-- The class that declares the field, first of those that going up comes to. -/
def declaring? (given : Table String ClassEntry) (field name : String) : Option String :=
  ((ascend given name).find? fun known => known.2.declares field).map Prod.fst

private theorem declaring?_of_none (h : given.find? name = none) :
    declaring? given field name = none := by
  rw [declaring?, ascend_of_none h]
  rfl

private theorem declaring?_of_some (h : given.find? name = some c) :
    declaring? given field name =
      if c.declares field = true then some name
      else c.superclass.bind (declaring? (given.erase name) field) := by
  rw [declaring?, ascend_of_some h, List.find?_cons]
  cases hdeclares : c.declares field with
  | true => rfl
  | false =>
    cases c.superclass with
    | none => rfl
    | some above => rfl

end Ascending

section Declaring

variable {given : Table String ClassEntry} {field name : String}

/-- What is found stands on the links and declares the field. -/
theorem ancestor_of_declaring? {top : String}
    (hgiven : ∀ b c, given.find? b = some c → t.classes.find? b = some c)
    (h : declaring? given field name = some top) :
    ∃ k, t.ancestor name k = some top ∧ t.Declares top field := by
  induction given, name using ascend.induct with
  | case1 given name hnone =>
    rw [declaring?_of_none hnone] at h
    cases h
  | case2 given name c hsome ih =>
    rw [declaring?_of_some hsome] at h
    split at h
    next hdeclares =>
      cases h
      exact ⟨0, rfl, c, hgiven _ _ hsome, hdeclares⟩
    next =>
      obtain ⟨above, hsuper, hfound⟩ := Option.bind_eq_some_iff.mp h
      have herase : ∀ b c, (given.erase name).find? b = some c → t.classes.find? b = some c := by
        intro b c hb
        rw [Table.find?_erase] at hb
        split at hb
        · cases hb
        · exact hgiven b c hb
      obtain ⟨k, hk, hdeclares⟩ := ih above herase hfound
      refine ⟨k + 1, ?_, hdeclares⟩
      rw [ancestor_succ, superclass?_eq_some.mpr ⟨c, hgiven _ _ hsome, hsuper⟩]
      exact hk

/-- The nearest declaration is found, as long as the classes up to it are given. -/
theorem Nearest.declaring?_eq {top : String} {k : Nat} (h : t.Nearest ⟨name, field⟩ k top)
    (hgiven : ∀ j ≤ k, ∀ b, t.ancestor name j = some b → given.find? b = t.classes.find? b) :
    declaring? given field name = some top := by
  induction k generalizing given name with
  | zero =>
    obtain ⟨hancestor, c, hc, hdeclares⟩ := declaresAt_iff.mp h.declaresAt
    cases hancestor
    rw [declaring?_of_some ((hgiven 0 (Nat.le_refl 0) name rfl).trans hc), if_pos hdeclares]
  | succ k ih =>
    have hup : t.ancestor name (k + 1) = some top := h.declaresAt.ancestor
    rw [ancestor_succ] at hup
    obtain ⟨above, habove, -⟩ := Option.bind_eq_some_iff.mp hup
    obtain ⟨c, hc, hsuper⟩ := superclass?_eq_some.mp habove
    have hsilent : ¬ c.declares field = true := fun hdeclares =>
      h.first 0 (Nat.zero_lt_succ k) name (declaresAt_iff.mpr ⟨rfl, c, hc, hdeclares⟩)
    rw [declaring?_of_some ((hgiven 0 (Nat.zero_le _) name rfl).trans hc), if_neg hsilent, hsuper]
    have hlink : t.ancestor name 1 = some above := habove
    refine ih (h.of_ancestor (Nat.le_add_left 1 k) hlink) fun j hj b hb => ?_
    have hb' : t.ancestor name (j + 1) = some b := by
      rw [ancestor_succ, habove]
      exact hb
    -- a circle back to this class would lead to the declaration by fewer links
    have hother : name ≠ b := by
      rintro rfl
      have hnearer := h.of_ancestor (Nat.succ_le_succ hj) hb'
      exact h.first _ (by omega) top hnearer.declaresAt
    rw [Table.find?_erase, if_neg hother]
    exact hgiven (j + 1) (Nat.succ_le_succ hj) b hb'

end Declaring

/-! ## What a reference denotes -/

private theorem resolve_eq_map (t : ClassTable) (r : FieldRef) :
    t.resolve r = (declaring? t.classes r.name r.className).map fun name => ⟨name, r.name⟩ := by
  rw [resolve, lineage, declaring?, Option.map_map]
  rfl

/-- A reference resolves to its nearest declaration. -/
theorem Nearest.resolve_eq {r : FieldRef} {k : Nat} {top : String} (h : t.Nearest r k top) :
    t.resolve r = some ⟨top, r.name⟩ := by
  rw [resolve_eq_map, h.declaring?_eq fun _ _ _ _ => rfl]
  rfl

private theorem exists_declaresAt_of_resolve {r : FieldRef} {d : DeclaredField}
    (h : t.resolve r = some d) : d.name = r.name ∧ ∃ k, t.DeclaresAt r k d.className := by
  rw [resolve_eq_map] at h
  obtain ⟨top, hfound, rfl⟩ := Option.map_eq_some_iff.mp h
  obtain ⟨k, hk, hdeclares⟩ := ancestor_of_declaring? (fun _ _ hb => hb) hfound
  exact ⟨rfl, k, declaresAt_iff.mpr ⟨hk, hdeclares⟩⟩

/-- What a reference resolves to is its nearest declaration, under the name of the reference. -/
theorem resolve_eq_some_iff {r : FieldRef} {d : DeclaredField} :
    t.resolve r = some d ↔ d.name = r.name ∧ ∃ k, t.Nearest r k d.className := by
  constructor
  · intro h
    obtain ⟨hname, k, hk⟩ := exists_declaresAt_of_resolve h
    obtain ⟨j, top, hnearest⟩ := hk.exists_nearest
    rw [hnearest.resolve_eq] at h
    cases h
    exact ⟨hname, j, hnearest⟩
  · rintro ⟨hname, k, hnearest⟩
    rw [hnearest.resolve_eq, ← hname]

/-- A reference does not resolve exactly when no ancestor declares the field. -/
theorem resolve_eq_none_iff {r : FieldRef} :
    t.resolve r = none ↔ ∀ k name, ¬ t.DeclaresAt r k name := by
  constructor
  · intro h k name hdeclares
    obtain ⟨j, top, hnearest⟩ := hdeclares.exists_nearest
    rw [hnearest.resolve_eq] at h
    cases h
  · intro h
    cases hresolve : t.resolve r with
    | none => rfl
    | some d =>
      obtain ⟨-, k, hk⟩ := exists_declaresAt_of_resolve hresolve
      exact absurd hk (h k d.className)

/-! ## The names that are looked at -/

/-- The search for a field from a class upwards, after the classes `passed`: the names that it looks
at, in turn, and the class that it finds. -/
inductive Search (t : ClassTable) (field : String) :
    List String → String → List String → Option String → Prop where
  /-- A class that has been passed ends the search. -/
  | again {passed : List String} {name : String} (met : name ∈ passed) :
      Search t field passed name [name] none
  /-- A class that the table does not know ends the search. -/
  | unknown {passed : List String} {name : String} (new : name ∉ passed)
      (unknown : t.classes.find? name = none) : Search t field passed name [name] none
  | declared {passed : List String} {name : String} {c : ClassEntry} (new : name ∉ passed)
      (known : t.classes.find? name = some c) (declares : c.declares field = true) :
      Search t field passed name [name] (some name)
  /-- A class without a superclass that does not declare the field ends the search. -/
  | top {passed : List String} {name : String} {c : ClassEntry} (new : name ∉ passed)
      (known : t.classes.find? name = some c) (silent : c.declares field = false)
      (top : c.superclass = none) : Search t field passed name [name] none
  | up {passed : List String} {name above : String} {c : ClassEntry} {looked : List String}
      {found : Option String} (new : name ∉ passed) (known : t.classes.find? name = some c)
      (silent : c.declares field = false) (link : c.superclass = some above)
      (rest : Search t field (name :: passed) above looked found) :
      Search t field passed name (name :: looked) found

/-- There is one search only. -/
theorem Search.unique {field name : String} {passed looked looked' : List String}
    {found found' : Option String} (h : t.Search field passed name looked found)
    (h' : t.Search field passed name looked' found') : looked = looked' ∧ found = found' := by
  induction h generalizing looked' found' with
  | again met => cases h' <;> grind
  | unknown new unknown => cases h' <;> grind
  | declared new known declares => cases h' <;> grind
  | top new known silent top => cases h' <;> grind
  | up new known silent link rest ih =>
    cases h' with
    | up new' known' silent' link' rest' =>
      rw [known] at known'
      cases known'
      rw [link] at link'
      cases link'
      obtain ⟨rfl, rfl⟩ := ih rest'
      exact ⟨rfl, rfl⟩
    | _ => grind

/-- The given classes are those of the table that have not been passed. -/
def Remaining (t : ClassTable) (passed : List String) (given : Table String ClassEntry) : Prop :=
  ∀ name, given.find? name = if name ∈ passed then none else t.classes.find? name

section Remaining

variable {given : Table String ClassEntry} {passed : List String} {field name : String}

private theorem remaining_classes (t : ClassTable) : t.Remaining [] t.classes :=
  fun _ => (if_neg List.not_mem_nil).symm

private theorem Remaining.find?_eq (h : t.Remaining passed given) (new : name ∉ passed) :
    given.find? name = t.classes.find? name := by
  rw [h, if_neg new]

private theorem Remaining.notMem {c : ClassEntry} (h : t.Remaining passed given)
    (hc : given.find? name = some c) : name ∉ passed := by
  intro hmet
  rw [h, if_pos hmet] at hc
  cases hc

/-- A class that is looked at has been passed then, and is no longer given. -/
private theorem Remaining.erase (h : t.Remaining passed given) (name : String) :
    t.Remaining (name :: passed) (given.erase name) := by
  intro b
  rw [Table.find?_erase, h]
  by_cases hb : name = b
  · rw [if_pos hb, if_pos (hb ▸ List.mem_cons_self)]
  · simp only [if_neg hb, List.mem_cons, or_iff_right (Ne.symm hb)]

/-- Going up among the classes that have not been passed is a search. -/
theorem Remaining.exists_search (h : t.Remaining passed given) :
    ∃ looked, t.Search field passed name looked (declaring? given field name) := by
  induction given, name using ascend.induct generalizing passed with
  | case1 given name hnone =>
    rw [declaring?_of_none hnone]
    by_cases hmet : name ∈ passed
    · exact ⟨_, .again hmet⟩
    · exact ⟨_, .unknown hmet ((h.find?_eq hmet).symm.trans hnone)⟩
  | case2 given name c hsome ih =>
    rw [declaring?_of_some hsome]
    have hnew := h.notMem hsome
    have hknown := (h.find?_eq hnew).symm.trans hsome
    split
    next hdeclares => exact ⟨_, .declared hnew hknown hdeclares⟩
    next hsilent =>
      have hsilent : c.declares field = false := Bool.eq_false_iff.mpr hsilent
      cases hsuper : c.superclass with
      | none => exact ⟨_, .top hnew hknown hsilent hsuper⟩
      | some above =>
        obtain ⟨looked, hsearch⟩ := ih above (h.erase name)
        exact ⟨_, .up hnew hknown hsilent hsuper hsearch⟩

/-- The names looked at begin the classes that going up comes to, and there is at most one name
besides, at the end. -/
theorem Search.exists_prefix {looked : List String} {found : Option String}
    (h : t.Search field passed name looked found) (hgiven : t.Remaining passed given) :
    ∃ known further, looked = known ++ further ∧ known <+: (ascend given name).map Prod.fst ∧
      further.length ≤ 1 := by
  induction h generalizing given with
  | again _ => exact ⟨[], _, rfl, List.nil_prefix, Nat.le_refl 1⟩
  | unknown _ _ => exact ⟨[], _, rfl, List.nil_prefix, Nat.le_refl 1⟩
  | declared new known _ =>
    rw [ascend_of_some ((hgiven.find?_eq new).trans known), List.map_cons]
    exact ⟨[_], [], rfl, List.prefix_append [_] _, Nat.zero_le 1⟩
  | top new known _ _ =>
    rw [ascend_of_some ((hgiven.find?_eq new).trans known), List.map_cons]
    exact ⟨[_], [], rfl, List.prefix_append [_] _, Nat.zero_le 1⟩
  | @up passed name above c looked found new known _ link _ ih =>
    obtain ⟨before, further, rfl, hbefore, hlength⟩ := ih (hgiven.erase name)
    rw [ascend_of_some ((hgiven.find?_eq new).trans known), link, List.map_cons]
    exact ⟨name :: before, further, rfl, List.cons_prefix_cons.mpr ⟨rfl, hbefore⟩, hlength⟩

end Remaining

/-- A reference denotes the nearest declaration of its field on the links up from its class, and
nothing if the links never come to one, be it that they end or that they go round in a circle. The
search for it looks at known classes, the first ones of the lineage and each of them once, and besides
at most at one name more, where it ends. From every class up to the declaring one the same declaration
is denoted, and what is denoted denotes itself. -/
theorem resolve_nearest (t : ClassTable) (r : FieldRef) :
    (∀ d, t.resolve r = some d ↔ d.name = r.name ∧ ∃ k, t.Nearest r k d.className) ∧
    (t.resolve r = none ↔ ∀ k name, ¬ t.DeclaresAt r k name) ∧
    (∃ looked found, t.Search r.name [] r.className looked found) ∧
    (∀ looked found, t.Search r.name [] r.className looked found →
      t.resolve r = found.map (fun name => ⟨name, r.name⟩) ∧
        ∃ known further, looked = known ++ further ∧
          known <+: (t.lineage r.className).map Prod.fst ∧ known.Nodup ∧
          (∀ b ∈ known, t.Knows b) ∧ further.length ≤ 1) ∧
    (∀ k top, t.Nearest r k top → ∀ j ≤ k, ∀ below, t.ancestor r.className j = some below →
      t.resolve ⟨below, r.name⟩ = t.resolve r) ∧
    ∀ d, t.resolve r = some d → t.resolve ⟨d.className, d.name⟩ = some d := by
  obtain ⟨looked, hsearch⟩ : ∃ looked, t.Search r.name [] r.className looked
      (declaring? t.classes r.name r.className) := t.remaining_classes.exists_search
  have hway : ∀ k top, t.Nearest r k top → ∀ j ≤ k, ∀ below,
      t.ancestor r.className j = some below → t.resolve ⟨below, r.name⟩ = t.resolve r := by
    intro k top hnearest j hj below hbelow
    rw [hnearest.resolve_eq, (hnearest.of_ancestor hj hbelow).resolve_eq]
  refine ⟨fun d => resolve_eq_some_iff, resolve_eq_none_iff, ⟨looked, _, hsearch⟩, ?_, hway, ?_⟩
  · intro looked' found hsearch'
    obtain ⟨rfl, rfl⟩ := hsearch.unique hsearch'
    obtain ⟨known, further, hlooked, hbegins, hlength⟩ := hsearch.exists_prefix t.remaining_classes
    refine ⟨resolve_eq_map t r, known, further, hlooked, hbegins,
      (nodup_ascend _ _).sublist hbegins.sublist, fun b hb => ?_, hlength⟩
    obtain ⟨e, he, rfl⟩ := List.mem_map.mp (hbegins.subset hb)
    exact ⟨e.2, find?_of_mem_ascend he⟩
  · intro d hd
    obtain ⟨hname, k, hnearest⟩ := resolve_eq_some_iff.mp hd
    rw [hname, hway k _ hnearest k (Nat.le_refl k) _ hnearest.declaresAt.ancestor, hd]

/-- A class below a circle of two, one of which declares a field. -/
def roundabout : ClassTable :=
  ((((({} : ClassTable).addClass "Leaf" (some "There")).addClass "There" (some "Back")).addClass
    "Back" (some "There")).declareField "Back" "count")

/-- A field that the circle declares is found from outside of the circle and from within. The search
for any other field goes around the circle once and ends. -/
theorem roundabout_nearest :
    (∃ k, roundabout.Nearest ⟨"Leaf", "count"⟩ k "Back") ∧
      roundabout.resolve ⟨"There", "count"⟩ = roundabout.resolve ⟨"Leaf", "count"⟩ ∧
      roundabout.resolve ⟨"Back", "count"⟩ = some ⟨"Back", "count"⟩ ∧
      roundabout.Search "name" [] "Leaf" ["Leaf", "There", "Back", "There"] none ∧
      roundabout.resolve ⟨"Leaf", "name"⟩ = none ∧
      ∀ k name, ¬ roundabout.DeclaresAt ⟨"Leaf", "name"⟩ k name := by
  have hcount : roundabout.resolve ⟨"Leaf", "count"⟩ = some ⟨"Back", "count"⟩ := by decide +kernel
  obtain ⟨hsome, -, -, -, hway, hself⟩ := resolve_nearest roundabout ⟨"Leaf", "count"⟩
  obtain ⟨-, k, hnearest⟩ := (hsome _).mp hcount
  have hk : 1 ≤ k := by
    apply Nat.pos_of_ne_zero
    rintro rfl
    exact absurd hnearest.declaresAt.ancestor (by decide)
  have habove : roundabout.ancestor "Leaf" 1 = some "There" := by decide +kernel
  have hleaf : roundabout.classes.find? "Leaf" = some ⟨some "There", []⟩ := by decide +kernel
  have hthere : roundabout.classes.find? "There" = some ⟨some "Back", []⟩ := by decide +kernel
  have hback : roundabout.classes.find? "Back" = some ⟨some "There", ["count"]⟩ := by
    decide +kernel
  have hsearch : roundabout.Search "name" [] "Leaf" ["Leaf", "There", "Back", "There"] none :=
    .up (by decide) hleaf rfl rfl (.up (by decide) hthere rfl rfl
      (.up (by decide) hback rfl rfl (.again (by decide))))
  obtain ⟨-, hnone, -, hends, -, -⟩ := resolve_nearest roundabout ⟨"Leaf", "name"⟩
  have hname : roundabout.resolve ⟨"Leaf", "name"⟩ = none := (hends _ _ hsearch).1
  exact ⟨⟨k, hnearest⟩, hway k _ hnearest 1 hk _ habove, hself _ hcount, hsearch, hname,
    hnone.mp hname⟩

end ClassTable

end ReachingWrites
