import Mathlib.Data.Finset.Card
import ReachingWrites.Proofs.Facts.Places

/-!
# The facts by place and by field

Numbered writes can be looked up in three ways, and the three agree. The row of writes is the static
writes of the graph in scan order, each with its field resolved. The ordinals lead from an index to the
position of its write and back, so a position stands for one index. And the sets of the fields divide
the indices: every index is in the set of the field that its write has and in no other, and a field has
a set only if it is written.

The sets are made when the scan is over and their universe is known; until then there are lists of
indices by field. `Numbering.Keyed` says that these have a list for each field met and for no other.
-/

set_option autoImplicit false

namespace ReachingWrites

variable {ι ρ F : Type}

/-- The static writes of a graph that resolve, with their fields: nodes ascending, and the writes of a
node in program order. -/
def FlowGraph.staticWrites [Instruction ι ρ] (g : FlowGraph ι) (resolve : ρ → Option F) :
    List (StaticWrite F) :=
  g.nodes.flatMap fun node => (g.instructions node).filterMap fun x =>
    (Instruction.staticWrite? x).bind fun reference => (resolve reference).map fun field =>
      { node, position := Instruction.position x, field }

/-- The static writes are what stands at the write sites. -/
theorem FlowGraph.staticWrites_eq [Instruction ι ρ] (g : FlowGraph ι) (resolve : ρ → Option F) :
    g.staticWrites resolve = g.writeSites.filterMap (WriteSite.resolved? resolve) := by
  rw [staticWrites, writeSites, List.filterMap_flatMap]
  refine List.flatMap_congr fun node _ => ?_
  rw [List.filterMap_filterMap]
  refine List.filterMap_congr fun x _ => ?_
  rw [WriteSite.of?, Option.bind_map]
  rfl

namespace Numbering

variable [DecidableEq F]

/-- A scan has a list of indices for each field that it has met, and for no other. -/
structure Keyed (s : Numbering F) : Prop where
  nodup : s.members.keys.Nodup
  mem_keys : ∀ field, field ∈ s.members.keys ↔ ∃ w ∈ s.writes.toList, w.field = field

omit [DecidableEq F] in
private theorem keyed_empty : Keyed ({} : Numbering F) where
  nodup := List.nodup_nil
  mem_keys field := by
    constructor
    · intro h
      cases h
    · intro h
      obtain ⟨w, hw, -⟩ := h
      cases hw

private theorem Keyed.enter [Describe ρ] {resolve : ρ → Option F} {s entered : Numbering F}
    {site : WriteSite ρ} (h : s.Keyed) (he : s.enter resolve site = .ok entered) :
    entered.Keyed := by
  obtain ⟨-, field, -, rfl⟩ := enter_eq_ok he
  refine ⟨Table.nodup_keys_alter h.nodup field _, ?_⟩
  intro other
  rw [Table.mem_keys_alter, h.mem_keys, Array.toList_push]
  simp only [List.mem_append, List.mem_singleton, or_and_right, exists_or, exists_eq_left, eq_comm]

end Numbering

namespace Facts

/-! ## The facts by place -/

/-- The facts are the static writes of a graph, and the ordinals lead from the index of a fact to its
position and back. -/
structure Enumerates [Instruction ι ρ] (f : Facts F) (resolve : ρ → Option F) (g : FlowGraph ι) :
    Prop where
  /-- Every static write resolves, so none is missing below. -/
  resolves : ∀ node, ∀ x ∈ g.instructions node, ∀ reference,
    Instruction.staticWrite? x = some reference → (resolve reference).isSome
  /-- The writes stand in scan order. -/
  writes : f.writes.toList = g.staticWrites resolve
  /-- There are as many positions as writes. -/
  size_positions : f.positions.size = f.size
  /-- A position is at an index exactly when that is the index of the position. -/
  get?_iff : ∀ i p, f.positions.get? i = some p ↔ f.positions.indexOf? p = some i
  /-- The index of a position is that of the write at it. -/
  indexOf?_iff : ∀ i p, f.positions.indexOf? p = some i ↔ ∃ w, f.write? i = some w ∧ w.position = p

variable [Instruction ι ρ] [DecidableEq F] {f : Facts F} {resolve : ρ → Option F} {g : FlowGraph ι}

private theorem Lists.toList_writes (h : f.Lists resolve g) :
    f.writes.toList = g.staticWrites resolve := by
  calc f.writes.toList = (f.writes.toList.map some).filterMap id := by
        rw [List.filterMap_map, Function.id_comp, List.filterMap_some]
    _ = (g.writeSites.map (WriteSite.resolved? resolve)).filterMap id := by rw [h.writes]
    _ = g.staticWrites resolve := by
        rw [List.filterMap_map, Function.id_comp, FlowGraph.staticWrites_eq]

/-- A position has an index exactly when a write is at it. -/
theorem Lists.get?_positions_iff (h : f.Lists resolve g) {i : Nat} {p : Position} :
    f.positions.get? i = some p ↔ ∃ w, f.write? i = some w ∧ w.position = p := by
  rw [h.get?_positions]
  constructor
  · intro hp
    obtain ⟨hlt, -⟩ := List.getElem?_eq_some_iff.mp hp
    rw [List.length_map, ← h.size_eq] at hlt
    have hw : f.write? i = some f.writes[i] := Array.getElem?_eq_getElem hlt
    rw [h.position_getElem? hw] at hp
    exact ⟨_, hw, Option.some.inj hp⟩
  · intro hw
    obtain ⟨w, hw, rfl⟩ := hw
    exact h.position_getElem? hw

/-- Facts that list the writes of a graph, all of which resolve, enumerate them. -/
theorem Lists.enumerates (h : f.Lists resolve g)
    (hresolves : ∀ site ∈ g.writeSites, (resolve site.reference).isSome) :
    f.Enumerates resolve g := by
  refine ⟨?_, h.toList_writes, ?_, fun i p => Ordinals.indexOf?_eq_some.symm, ?_⟩
  · intro node x hx reference hreference
    exact hresolves _ (FlowGraph.mem_writeSites_of_staticWrite? hx hreference)
  · rw [Ordinals.size, ← Array.length_toList, h.positions, List.length_map, h.size_eq]
  · intro i p
    rw [Ordinals.indexOf?_eq_some, h.get?_positions_iff]

/-! ## The facts by field -/

/-- The sets of the fields divide the facts. -/
structure Partitioned (f : Facts F) : Prop where
  /-- A field without a set is one that no fact writes. -/
  writesOf?_eq_none : ∀ field, f.writesOf? field = none ↔ ∀ w ∈ f.writes.toList, w.field ≠ field
  /-- A set ranges over the facts. -/
  fits : ∀ field members, f.writesOf? field = some members → members.Fits f.size
  /-- The set of a field holds the facts that write it. -/
  mem_iff : ∀ field members, f.writesOf? field = some members →
    ∀ i, i ∈ members ↔ ∃ w, f.write? i = some w ∧ w.field = field
  /-- No set is empty. -/
  nonempty : ∀ field members, f.writesOf? field = some members → ∃ i, i ∈ members
  /-- The sets of two fields have no fact in common. -/
  disjoint : ∀ field field' members members', f.writesOf? field = some members →
    f.writesOf? field' = some members' → field ≠ field' → ∀ i ∈ members, i ∉ members'
  /-- Every fact is in a set. -/
  cover : ∀ i < f.size, ∃ field members, f.writesOf? field = some members ∧ i ∈ members
  /-- There are as many sets as distinct fields of facts. -/
  fieldCount : f.fieldCount = (f.writes.toList.map StaticWrite.field).toFinset.card

omit [Instruction ι ρ] in
/-- The facts are divided if the index knows the writes of each field and has a set for each field that
is written and for no other. -/
theorem Indexed.partitioned (h : f.Indexed) (hnodup : f.killIndex.keys.Nodup)
    (hkeys : ∀ field, field ∈ f.killIndex.keys ↔ ∃ w ∈ f.writes.toList, w.field = field) :
    f.Partitioned := by
  have hmem {field : F} {members : BitSet} (hfind : f.writesOf? field = some members) (i : Nat) :
      i ∈ members ↔ ∃ w, f.write? i = some w ∧ w.field = field := by
    have hindex := h.mem_writesOf field i
    rwa [hfind, Option.getD_some] at hindex
  have hwritten {field : F} {w : StaticWrite F} (hw : w ∈ f.writes.toList) (hfield : w.field = field) :
      ∃ members, f.writesOf? field = some members := by
    have hsome : f.writesOf? field ≠ none := fun hnone =>
      Table.find?_eq_none.mp hnone ((hkeys field).mpr ⟨w, hw, hfield⟩)
    exact Option.ne_none_iff_exists'.mp hsome
  refine ⟨fun field => ?_, h.fits, fun field members hfind => hmem hfind, ?_, ?_, ?_, ?_⟩
  · rw [writesOf?, Table.find?_eq_none, hkeys]
    simp only [not_exists, not_and, ne_eq]
  · intro field members hfind
    have hkey : field ∈ f.killIndex.keys := by
      by_contra hnot
      rw [writesOf?, Table.find?_eq_none.mpr hnot] at hfind
      cases hfind
    obtain ⟨w, hw, hfield⟩ := (hkeys field).mp hkey
    obtain ⟨i, hi⟩ := List.mem_iff_getElem?.mp hw
    rw [Array.getElem?_toList] at hi
    exact ⟨i, (hmem hfind i).mpr ⟨w, hi, hfield⟩⟩
  · intro field field' members members' hfind hfind' hne i hi hi'
    obtain ⟨w, hw, rfl⟩ := (hmem hfind i).mp hi
    obtain ⟨w', hw', rfl⟩ := (hmem hfind' i).mp hi'
    exact hne (congrArg StaticWrite.field (Option.some.inj (hw.symm.trans hw')))
  · intro i hi
    have hw : f.write? i = some f.writes[i] := Array.getElem?_eq_getElem hi
    obtain ⟨members, hfind⟩ := hwritten (Array.getElem_mem_toList hi) rfl
    exact ⟨_, members, hfind, (hmem hfind i).mpr ⟨_, hw, rfl⟩⟩
  · have hsame : f.killIndex.keys.toFinset = (f.writes.toList.map StaticWrite.field).toFinset := by
      ext field
      rw [List.mem_toFinset, List.mem_toFinset, hkeys, List.mem_map]
    rw [← hsame, List.toFinset_card_of_nodup hnodup, Table.keys, List.length_map]
    rfl

/-! ## A numbering that succeeds -/

/-- The sets of a numbering belong to the fields of its writes, each of which has one. -/
theorem keys_of_ofGraph [Describe ρ] (h : Facts.ofGraph resolve g = .ok f) :
    f.killIndex.keys.Nodup ∧
      ∀ field, field ∈ f.killIndex.keys ↔ ∃ w ∈ f.writes.toList, w.field = field := by
  obtain ⟨s, hs, rfl⟩ := map_eq_ok.mp h
  have hkeyed : s.Keyed :=
    foldlM_preserves (fun _ _ _ hbefore henter => hbefore.enter henter) Numbering.keyed_empty hs
  have hkeys : s.facts.killIndex.keys = s.members.keys := Table.keys_mapValues _ _
  rw [hkeys]
  exact ⟨hkeyed.nodup, hkeyed.mem_keys⟩

/-- When the writes of a graph have been numbered, the facts are its static writes in scan order, all of
them and each with its resolved field; their positions stand for their indices in both directions; and
the sets of the fields divide the indices among the distinct fields that are written. -/
theorem ofGraph_numbers [Describe ρ] (h : Facts.ofGraph resolve g = .ok f) :
    f.Enumerates resolve g ∧ f.Partitioned := by
  have hlists := lists_of_ofGraph h
  obtain ⟨hnodup, hkeys⟩ := keys_of_ofGraph h
  have hresolves := (exists_ofGraph_iff.mp ⟨f, h⟩).resolves
  exact ⟨hlists.enumerates hresolves, hlists.indexed.partitioned hnodup hkeys⟩

end Facts

/-- Two nodes that write `x`, the second one `y` too, among instructions that write no static field. The
edge that leaves the graph does not matter to the numbering. -/
def FlowGraph.scatteredWrites : FlowGraph Instr :=
  ⟨#[⟨[⟨⟨4⟩, .other⟩, ⟨⟨1⟩, .putStatic ⟨"A", "x"⟩⟩], [7]⟩,
    ⟨[⟨⟨2⟩, .putStatic ⟨"A", "y"⟩⟩, ⟨⟨3⟩, .getStatic ⟨"A", "x"⟩⟩, ⟨⟨4⟩, .putStatic ⟨"B", "x"⟩⟩], []⟩]⟩

/-- Of the three facts two write one field, a position is found among the writes only, and a field that
is not written has no set. -/
theorem Facts.scatteredWrites_numbers : ∃ f : Facts String,
    Facts.ofGraph (fun r : FieldRef => some r.name) .scatteredWrites = .ok f ∧
      f.Enumerates (fun r : FieldRef => some r.name) .scatteredWrites ∧ f.Partitioned ∧
        f.positions.indexOf? ⟨4⟩ = some 2 ∧ f.writesOf? "x" = some ⟨3, #[5]⟩ ∧
          f.writesOf? "z" = none ∧ f.fieldCount = 2 := by
  have hrun : (Facts.ofGraph (fun r : FieldRef => some r.name) .scatteredWrites).toOption.map
      (fun f => (f.positions.indexOf? ⟨4⟩, f.writesOf? "x", f.writesOf? "z", f.fieldCount)) =
        some (some 2, some ⟨3, #[5]⟩, none, 2) := by
    decide +kernel
  obtain ⟨f, hf, hvalues⟩ := Option.map_eq_some_iff.mp hrun
  simp only [Prod.mk.injEq] at hvalues
  obtain ⟨henumerates, hpartitioned⟩ := Facts.ofGraph_numbers (toOption_eq_some.mp hf)
  exact ⟨f, toOption_eq_some.mp hf, henumerates, hpartitioned, hvalues⟩

end ReachingWrites
