import ReachingWrites.Facts.Numbering
import ReachingWrites.Proofs.BitSet.Members
import ReachingWrites.Proofs.Failure
import ReachingWrites.Proofs.Ordinals
import ReachingWrites.Proofs.Table

/-!
# The numbering of the writes

A numbering that succeeds lists the static writes of the graph in scan order, each with its field
resolved, no two at one position; and it knows for each field which of them write it. It succeeds if
no two writes stand at one position and all fields resolve. Otherwise it reports the first write that
stands at the position of an earlier one or does not resolve, and the position comes first.
-/

set_option autoImplicit false

namespace ReachingWrites

variable {ι ρ F : Type}

/-- The static write that stands at a site, if its field resolves. -/
def WriteSite.resolved? (resolve : ρ → Option F) (site : WriteSite ρ) : Option (StaticWrite F) :=
  (resolve site.reference).map fun field => { node := site.node, position := site.position, field }

namespace Numbering

variable [DecidableEq F]

/-- A scan has come past the given sites: it holds their positions and their writes in order, and for
each field the indices of its writes. -/
structure Scanned (resolve : ρ → Option F) (sites : List (WriteSite ρ)) (s : Numbering F) : Prop where
  positions : s.positions.values.toList = sites.map WriteSite.position
  nodup : (sites.map WriteSite.position).Nodup
  writes : sites.map (WriteSite.resolved? resolve) = s.writes.toList.map some
  members : ∀ field i, i ∈ (s.members.find? field).getD [] ↔
    ∃ w, s.writes[i]? = some w ∧ w.field = field

private theorem scanned_nil (resolve : ρ → Option F) : Scanned resolve [] {} where
  positions := rfl
  nodup := List.nodup_nil
  writes := rfl
  members field i := by
    constructor
    · intro h
      cases h
    · intro h
      obtain ⟨w, hw, -⟩ := h
      cases hw

private theorem Scanned.size_positions {resolve : ρ → Option F} {sites : List (WriteSite ρ)}
    {s : Numbering F} (h : Scanned resolve sites s) : s.positions.size = s.writes.size := by
  have hpositions := congrArg List.length h.positions
  have hwrites := congrArg List.length h.writes
  rw [List.length_map] at hpositions hwrites
  rw [List.length_map] at hwrites
  rw [Ordinals.size, ← Array.length_toList, ← Array.length_toList, hpositions, hwrites]

/-- A site is entered if its position is new and its field resolves. Its write then gets the next
index. -/
theorem enter_eq_ok [Describe ρ] {resolve : ρ → Option F} {s entered : Numbering F}
    {site : WriteSite ρ} (h : s.enter resolve site = .ok entered) :
    s.positions.indexOf? site.position = none ∧ ∃ field, resolve site.reference = some field ∧
      entered = {
        positions := (s.positions.add site.position).1
        writes := s.writes.push { node := site.node, position := site.position, field }
        members := s.members.alter field fun indices =>
          indices.getD [] ++ [s.positions.size] } := by
  unfold enter at h
  split at h
  · cases h
  next hnew =>
    rw [Option.not_isSome_iff_eq_none] at hnew
    split at h
    · cases h
    next field hfield =>
      cases h
      refine ⟨hnew, field, hfield, ?_⟩
      rw [Ordinals.add_of_new hnew]

/-- When a site has been entered, the scan has come past it too. -/
private theorem Scanned.enter [Describe ρ] {resolve : ρ → Option F} {sites : List (WriteSite ρ)}
    {s entered : Numbering F} (h : Scanned resolve sites s) {site : WriteSite ρ}
    (he : s.enter resolve site = .ok entered) : Scanned resolve (sites ++ [site]) entered := by
  obtain ⟨hnew, field, hfield, rfl⟩ := enter_eq_ok he
  have hnotMem := Ordinals.indexOf?_eq_none.mp hnew
  have hpositions : (s.positions.add site.position).1.values.toList =
      (sites ++ [site]).map WriteSite.position := by
    rw [Ordinals.toList_values_add, if_neg hnotMem, h.positions, List.map_append, List.map_singleton]
  rw [h.size_positions]
  refine ⟨hpositions, hpositions ▸ (s.positions.add site.position).1.nodup, ?_, ?_⟩
  · rw [List.map_append, h.writes, Array.toList_push, List.map_append, List.map_singleton,
      List.map_singleton, WriteSite.resolved?, hfield, Option.map_some]
  · intro other i
    rw [Table.find?_alter, Array.getElem?_push]
    have hmembers := h.members other i
    by_cases hother : field = other
    · subst hother
      rw [if_pos rfl, Option.getD_some, List.mem_append, List.mem_singleton, hmembers]
      by_cases hi : i = s.writes.size
      · subst hi
        simp
      · simp [hi]
    · rw [if_neg hother, hmembers]
      by_cases hi : i = s.writes.size
      · subst hi
        simp [hother]
      · simp [hi]

private theorem Scanned.foldlM_enter [Describe ρ] {resolve : ρ → Option F}
    {done sites : List (WriteSite ρ)} {s entered : Numbering F} (h : Scanned resolve done s)
    (he : sites.foldlM (Numbering.enter resolve) s = .ok entered) :
    Scanned resolve (done ++ sites) entered := by
  induction sites generalizing done s with
  | nil =>
    rw [foldlM_nil_eq_ok] at he
    subst he
    rwa [List.append_nil]
  | cons site sites ih =>
    obtain ⟨next, hfirst, hrest⟩ := foldlM_cons_eq_ok.mp he
    have hscanned := ih (h.enter hfirst) hrest
    rwa [List.append_assoc] at hscanned

end Numbering

/-! ## Writes that cannot be numbered -/

/-- Writes that can be numbered: no two stand at one position, and all fields resolve. -/
structure Numberable (resolve : ρ → Option F) (sites : List (WriteSite ρ)) : Prop where
  distinct : (sites.map WriteSite.position).Nodup
  resolves : ∀ site ∈ sites, (resolve site.reference).isSome

namespace Numbering

variable [DecidableEq F] {resolve : ρ → Option F} {sites : List (WriteSite ρ)}

private theorem Scanned.mem_positions {s : Numbering F} (h : Scanned resolve sites s) (p : Position) :
    (s.positions.indexOf? p).isSome = true ↔ p ∈ sites.map WriteSite.position := by
  rw [← h.positions, Option.isSome_iff_ne_none, Ne, Ordinals.indexOf?_eq_none, Decidable.not_not]

/-- Sites that a scan has come past can be numbered. -/
theorem Scanned.numberable {s : Numbering F} (h : Scanned resolve sites s) :
    Numberable resolve sites where
  distinct := h.nodup
  resolves site hsite := by
    have hmem : site.resolved? resolve ∈ s.writes.toList.map some := by
      rw [← h.writes]
      exact List.mem_map_of_mem hsite
    obtain ⟨w, -, hw⟩ := List.mem_map.mp hmem
    obtain ⟨field, hfield, -⟩ := Option.map_eq_some_iff.mp hw.symm
    rw [hfield]
    rfl

variable [Describe ρ]

/-- A site cannot be entered after others for one of two reasons. That its position is taken is
reported even if its field does not resolve either. -/
theorem Scanned.enter_eq_error {s : Numbering F} (h : Scanned resolve sites s)
    {site : WriteSite ρ} {failure : AnalysisFailure} :
    s.enter resolve site = .error failure ↔
      (site.position ∈ sites.map WriteSite.position ∧
        failure = .duplicatePosition site.node site.position) ∨
      (site.position ∉ sites.map WriteSite.position ∧ resolve site.reference = none ∧
        failure = .unresolvedField site.node site.position (describe site.reference)) := by
  rw [← h.mem_positions, Numbering.enter]
  split
  next htaken => simp [htaken, eq_comm]
  next hnew =>
    split
    next hnone => simp [hnew, hnone, eq_comm]
    next field hfield => simp [hnew, hfield]

/-- Writes that can be numbered are all entered. -/
theorem exists_foldlM_enter (h : Numberable resolve sites) :
    ∃ s, sites.foldlM (enter resolve) {} = .ok s := by
  cases hresult : sites.foldlM (enter resolve) {} with
  | ok s => exact ⟨s, rfl⟩
  | error failure =>
    obtain ⟨before, site, after, s, rfl, hbefore, hsite⟩ := foldlM_eq_error.mp hresult
    have hscanned := (scanned_nil resolve).foldlM_enter hbefore
    rw [List.nil_append] at hscanned
    rcases hscanned.enter_eq_error.mp hsite with ⟨htaken, -⟩ | ⟨-, hnone, -⟩
    · have hdistinct := h.distinct
      rw [List.map_append, List.map_cons, List.nodup_append] at hdistinct
      exact absurd rfl (hdistinct.2.2 _ htaken _ List.mem_cons_self)
    · have hresolves := h.resolves site (List.mem_append_right _ List.mem_cons_self)
      rw [hnone] at hresolves
      cases hresolves

end Numbering

namespace Facts

variable [DecidableEq F]

section Succeeds

variable [Instruction ι ρ] [Describe ρ] {resolve : ρ → Option F} {g : FlowGraph ι}

/-- The writes of a graph are numbered exactly when they can be. -/
theorem exists_ofGraph_iff :
    (∃ f, Facts.ofGraph resolve g = .ok f) ↔ Numberable resolve g.writeSites := by
  constructor
  · intro h
    obtain ⟨f, hf⟩ := h
    obtain ⟨s, hs, -⟩ := map_eq_ok.mp hf
    have hscanned := (Numbering.scanned_nil resolve).foldlM_enter hs
    rw [List.nil_append] at hscanned
    exact hscanned.numberable
  · intro h
    obtain ⟨s, hs⟩ := Numbering.exists_foldlM_enter h
    exact ⟨s.facts, map_eq_ok.mpr ⟨s, hs, rfl⟩⟩

/-- The failure is that of the first write that cannot be numbered after those before it. -/
theorem ofGraph_eq_error {failure : AnalysisFailure} :
    Facts.ofGraph resolve g = .error failure ↔ ∃ earlier site later,
      g.writeSites = earlier ++ site :: later ∧ Numberable resolve earlier ∧
        ((site.position ∈ earlier.map WriteSite.position ∧
            failure = .duplicatePosition site.node site.position) ∨
          (site.position ∉ earlier.map WriteSite.position ∧ resolve site.reference = none ∧
            failure = .unresolvedField site.node site.position (describe site.reference))) := by
  rw [Facts.ofGraph, map_eq_error, foldlM_eq_error]
  constructor
  · intro h
    obtain ⟨earlier, site, later, s, hsplit, hearlier, hsite⟩ := h
    have hscanned := (Numbering.scanned_nil resolve).foldlM_enter hearlier
    rw [List.nil_append] at hscanned
    exact ⟨earlier, site, later, hsplit, hscanned.numberable, hscanned.enter_eq_error.mp hsite⟩
  · intro h
    obtain ⟨earlier, site, later, hsplit, hnumberable, hfailure⟩ := h
    obtain ⟨s, hs⟩ := Numbering.exists_foldlM_enter hnumberable
    have hscanned := (Numbering.scanned_nil resolve).foldlM_enter hs
    rw [List.nil_append] at hscanned
    exact ⟨earlier, site, later, s, hsplit, hs, hscanned.enter_eq_error.mpr hfailure⟩

end Succeeds

/-! ## The facts of a graph -/

/-- The index of the fields knows for each field the facts that write it. -/
structure Indexed (f : Facts F) : Prop where
  fits : ∀ field s, f.writesOf? field = some s → s.Fits f.size
  mem_writesOf : ∀ field i, i ∈ (f.writesOf? field).getD (BitSet.empty f.size) ↔
    ∃ w, f.write? i = some w ∧ w.field = field

/-- The facts are the static writes of a graph: their positions and the writes stand in scan order, no
position comes twice, and the index knows the writes of each field. -/
structure Lists [Instruction ι ρ] (f : Facts F) (resolve : ρ → Option F) (g : FlowGraph ι) :
    Prop where
  positions : f.positions.values.toList = g.writeSites.map WriteSite.position
  nodup : (g.writeSites.map WriteSite.position).Nodup
  writes : g.writeSites.map (WriteSite.resolved? resolve) = f.writes.toList.map some
  indexed : f.Indexed

/-- A numbering that succeeds lists the static writes of the graph. -/
theorem lists_of_ofGraph [Instruction ι ρ] [Describe ρ] {resolve : ρ → Option F} {g : FlowGraph ι}
    {f : Facts F} (h : Facts.ofGraph resolve g = .ok f) : f.Lists resolve g := by
  obtain ⟨s, hs, rfl⟩ := map_eq_ok.mp h
  have hscanned := (Numbering.scanned_nil resolve).foldlM_enter hs
  rw [List.nil_append] at hscanned
  have hfind (field : F) : s.facts.writesOf? field =
      (s.members.find? field).map (BitSet.ofIndices s.writes.size) :=
    Table.find?_mapValues s.members _ field
  refine ⟨hscanned.positions, hscanned.nodup, hscanned.writes, ⟨?_, ?_⟩⟩
  · intro field members hmembers
    rw [hfind, Option.map_eq_some_iff] at hmembers
    obtain ⟨indices, -, rfl⟩ := hmembers
    exact BitSet.fits_ofIndices _ indices
  · intro field i
    have hmembers := hscanned.members field i
    have hlt : (∃ w, s.writes[i]? = some w ∧ w.field = field) → i < s.writes.size := by
      intro hwrite
      obtain ⟨w, hw, -⟩ := hwrite
      exact (Array.getElem?_eq_some_iff.mp hw).1
    rw [hfind]
    cases hindices : s.members.find? field with
    | none =>
      rw [hindices] at hmembers
      have hnone : i ∉ BitSet.empty s.facts.size := BitSet.notMem_empty _ i
      constructor
      · intro hi
        exact absurd hi hnone
      · intro hw
        exact absurd (hmembers.mpr hw) List.not_mem_nil
    | some indices =>
      rw [hindices] at hmembers
      rw [Option.map_some, Option.getD_some, BitSet.mem_ofIndices]
      constructor
      · intro hi
        exact hmembers.mp hi.1
      · intro hw
        exact ⟨hmembers.mpr hw, hlt hw⟩

end Facts

end ReachingWrites
