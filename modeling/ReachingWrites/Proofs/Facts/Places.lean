import ReachingWrites.Proofs.FlowGraph.Edges
import ReachingWrites.Proofs.Facts.Numbering

/-!
# The instructions that facts stand for

A fact is a write, and a write is an instruction of a block. `FlowGraph.StandsBefore` says which: the
write stands in its node before certain other instructions. The facts of a graph are exactly its
static writes, and since no two share a position, each has one place. So what is said of the later
facts of a node, or of all of them, can be said of its instructions.
-/

set_option autoImplicit false

namespace ReachingWrites

variable {ι ρ F : Type} [Instruction ι ρ]

/-- An instruction writes a static field, in the sense of a resolution. -/
def Instruction.Writes (resolve : ρ → Option F) (field : F) (x : ι) : Prop :=
  ∃ reference, Instruction.staticWrite? x = some reference ∧ resolve reference = some field

private theorem WriteSite.node_of? {n : NodeId} {x : ι} {site : WriteSite ρ}
    (h : WriteSite.of? n x = some site) : site.node = n := by
  obtain ⟨reference, -, rfl⟩ := Option.map_eq_some_iff.mp h
  rfl

namespace FlowGraph

/-- No instruction of a node writes a field. -/
def Clear (g : FlowGraph ι) (resolve : ρ → Option F) (field : F) (n : NodeId) : Prop :=
  ∀ x ∈ g.instructions n, ¬ Instruction.Writes resolve field x

/-- A write stands in its node, and the instructions `after` follow it there. -/
def StandsBefore (g : FlowGraph ι) (resolve : ρ → Option F) (w : StaticWrite F) (after : List ι) :
    Prop :=
  ∃ before x, g.instructions w.node = before ++ x :: after ∧
    Instruction.position x = w.position ∧ Instruction.Writes resolve w.field x

omit [Instruction ι ρ] in
/-- Only a node of the graph has instructions. -/
theorem lt_nodeCount_of_mem_instructions {g : FlowGraph ι} {n : NodeId} {x : ι}
    (h : x ∈ g.instructions n) : n < g.nodeCount := by
  unfold instructions at h
  split at h
  · rename_i block hblock
    exact (Array.getElem?_eq_some_iff.mp hblock).1
  · cases h

/-- The write sites are those of the instructions of all nodes. -/
theorem mem_writeSites {g : FlowGraph ι} {site : WriteSite ρ} :
    site ∈ g.writeSites ↔ ∃ n, ∃ x ∈ g.instructions n, WriteSite.of? n x = some site := by
  simp only [writeSites, List.mem_flatMap, List.mem_filterMap, nodes, List.mem_range]
  constructor
  · intro h
    obtain ⟨n, -, x, hx, hsite⟩ := h
    exact ⟨n, x, hx, hsite⟩
  · intro h
    obtain ⟨n, x, hx, hsite⟩ := h
    exact ⟨n, lt_nodeCount_of_mem_instructions hx, x, hx, hsite⟩

/-- An instruction that writes a static field has a write site. -/
theorem mem_writeSites_of_staticWrite? {g : FlowGraph ι} {n : NodeId} {x : ι}
    (hx : x ∈ g.instructions n) {reference : ρ}
    (hreference : Instruction.staticWrite? x = some reference) :
    (⟨n, Instruction.position x, reference⟩ : WriteSite ρ) ∈ g.writeSites := by
  refine mem_writeSites.mpr ⟨n, x, hx, ?_⟩
  rw [WriteSite.of?, hreference, Option.map_some]

/-- The sites of a graph around one of them: after it come those of the instructions that follow in
its node and then those of other nodes. -/
theorem writeSites_split {g : FlowGraph ι} {n : NodeId} {before after : List ι} {x : ι}
    (h : g.instructions n = before ++ x :: after) {site : WriteSite ρ}
    (hsite : WriteSite.of? n x = some site) :
    ∃ earlier later, g.writeSites = earlier ++ site :: (after.filterMap (WriteSite.of? n) ++ later) ∧
      ∀ other ∈ later, n ≠ other.node := by
  have hx : x ∈ g.instructions n := by
    rw [h]
    simp
  obtain ⟨first, rest, hnodes⟩ := List.append_of_mem
    (List.mem_range.mpr (lt_nodeCount_of_mem_instructions hx))
  have hnodup : (List.range g.nodeCount).Nodup := List.nodup_range
  rw [hnodes, List.nodup_append, List.nodup_cons] at hnodup
  obtain ⟨-, ⟨hnotMem, -⟩, -⟩ := hnodup
  refine ⟨first.flatMap (fun node => (g.instructions node).filterMap (WriteSite.of? node)) ++
      before.filterMap (WriteSite.of? n),
    rest.flatMap fun node => (g.instructions node).filterMap (WriteSite.of? node), ?_, ?_⟩
  · rw [writeSites, nodes, hnodes, List.flatMap_append, List.flatMap_cons, h,
      List.filterMap_append, List.filterMap_cons_some hsite]
    simp only [List.append_assoc, List.cons_append]
  · intro other hother
    obtain ⟨m, hm, hother⟩ := List.mem_flatMap.mp hother
    obtain ⟨y, -, hy⟩ := List.mem_filterMap.mp hother
    rw [WriteSite.node_of? hy]
    intro heq
    rw [← heq] at hm
    exact hnotMem hm

private theorem map_position_writeSites (g : FlowGraph ι) : g.writeSites.map WriteSite.position =
    g.allInstructions.filterMap fun x =>
      (Instruction.staticWrite? x).map fun _ => Instruction.position x := by
  simp only [writeSites, allInstructions, List.map_flatMap, List.filterMap_flatMap,
    List.map_filterMap, WriteSite.of?, Option.map_map, Function.comp_def]

private theorem map_reference_writeSites (g : FlowGraph ι) : g.writeSites.map WriteSite.reference =
    g.allInstructions.filterMap Instruction.staticWrite? := by
  simp only [writeSites, allInstructions, List.map_flatMap, List.filterMap_flatMap,
    List.map_filterMap, WriteSite.of?, Option.map_map, Function.comp_def, Option.map_id']

end FlowGraph

/-- Whether the writes of a graph can be numbered depends on its instructions only, and not on the nodes
that they are in nor on their order. -/
theorem Numberable.of_perm {g g' : FlowGraph ι} {resolve : ρ → Option F}
    (hperm : g'.allInstructions.Perm g.allInstructions) (h : Numberable resolve g.writeSites) :
    Numberable resolve g'.writeSites where
  distinct := by
    have hdistinct := h.distinct
    rw [FlowGraph.map_position_writeSites] at hdistinct ⊢
    exact (hperm.filterMap _).nodup_iff.mpr hdistinct
  resolves site hsite := by
    have hmem := List.mem_map_of_mem (f := WriteSite.reference) hsite
    rw [FlowGraph.map_reference_writeSites, (hperm.filterMap _).mem_iff,
      ← FlowGraph.map_reference_writeSites] at hmem
    obtain ⟨other, hother, heq⟩ := List.mem_map.mp hmem
    rw [← heq]
    exact h.resolves other hother

/-! ## Sites and writes -/

/-- A write that stands at the site of an instruction of a node is in that node and is what the
instruction writes. -/
theorem WriteSite.of?_resolved? {resolve : ρ → Option F} {n : NodeId} {x : ι} {w : StaticWrite F} :
    (∃ site, WriteSite.of? n x = some site ∧ site.resolved? resolve = some w) ↔
      w.node = n ∧ Instruction.position x = w.position ∧ Instruction.Writes resolve w.field x := by
  obtain ⟨node, position, field⟩ := w
  simp only [WriteSite.of?, WriteSite.resolved?, Option.map_eq_some_iff, Instruction.Writes]
  constructor
  · intro h
    obtain ⟨_, ⟨reference, hreference, rfl⟩, field, hfield, heq⟩ := h
    cases heq
    exact ⟨rfl, rfl, reference, hreference, hfield⟩
  · intro h
    obtain ⟨rfl, rfl, reference, hreference, hfield⟩ := h
    exact ⟨_, ⟨reference, hreference, rfl⟩, field, hfield, rfl⟩

omit [Instruction ι ρ] in
/-- The write at a site is in the node and at the position of the site. -/
theorem WriteSite.node_resolved? {resolve : ρ → Option F} {site : WriteSite ρ} {w : StaticWrite F}
    (h : site.resolved? resolve = some w) : w.node = site.node ∧ w.position = site.position := by
  obtain ⟨field, -, rfl⟩ := Option.map_eq_some_iff.mp h
  exact ⟨rfl, rfl⟩

omit [Instruction ι ρ] in
/-- The reference of a site resolves to the field of its write. -/
theorem WriteSite.resolve_reference {resolve : ρ → Option F} {site : WriteSite ρ}
    {w : StaticWrite F} (h : site.resolved? resolve = some w) :
    resolve site.reference = some w.field := by
  obtain ⟨field, hfield, rfl⟩ := Option.map_eq_some_iff.mp h
  exact hfield

omit [Instruction ι ρ] in
private theorem mem_of_map_resolved? {resolve : ρ → Option F} {sites : List (WriteSite ρ)}
    {writes : List (StaticWrite F)}
    (h : sites.map (WriteSite.resolved? resolve) = writes.map some) {w : StaticWrite F} :
    w ∈ writes ↔ ∃ site ∈ sites, site.resolved? resolve = some w := by
  have hmem : some w ∈ writes.map some ↔ w ∈ writes := by simp
  rw [← hmem, ← h, List.mem_map]

namespace Facts

variable [DecidableEq F] {f : Facts F} {resolve : ρ → Option F} {g : FlowGraph ι}

/-- The facts of a node are the writes of its instructions. -/
theorem Lists.mem_writes (h : f.Lists resolve g) {w : StaticWrite F} :
    w ∈ f.writes.toList ↔ ∃ x ∈ g.instructions w.node, Instruction.position x = w.position ∧
      Instruction.Writes resolve w.field x := by
  rw [mem_of_map_resolved? h.writes]
  constructor
  · intro hmem
    obtain ⟨site, hsite, hw⟩ := hmem
    obtain ⟨n, x, hx, hof⟩ := FlowGraph.mem_writeSites.mp hsite
    obtain ⟨rfl, hposition, hwrites⟩ := WriteSite.of?_resolved?.mp ⟨site, hof, hw⟩
    exact ⟨x, hx, hposition, hwrites⟩
  · intro hinstruction
    obtain ⟨x, hx, hposition, hwrites⟩ := hinstruction
    obtain ⟨site, hof, hw⟩ := WriteSite.of?_resolved?.mpr ⟨rfl, hposition, hwrites⟩
    exact ⟨site, FlowGraph.mem_writeSites.mpr ⟨w.node, x, hx, hof⟩, hw⟩

/-- No fact of a node has a field exactly when no instruction there writes it. -/
theorem Lists.clear_iff (h : f.Lists resolve g) {n : NodeId} {field : F} :
    (∀ w ∈ f.writes.toList, w.node = n → w.field ≠ field) ↔ g.Clear resolve field n := by
  constructor
  · intro hnone x hx hwrites
    have hmem : (⟨n, Instruction.position x, field⟩ : StaticWrite F) ∈ f.writes.toList :=
      h.mem_writes.mpr ⟨x, hx, rfl, hwrites⟩
    exact hnone _ hmem rfl rfl
  · intro hclear w hw hnode hfield
    obtain ⟨x, hx, -, hwrites⟩ := h.mem_writes.mp hw
    rw [hnode] at hx
    rw [hfield] at hwrites
    exact hclear x hx hwrites

/-- The facts are the static writes of the graph. -/
theorem Lists.exists_write?_iff (h : f.Lists resolve g) {w : StaticWrite F} :
    (∃ i, f.write? i = some w) ↔ ∃ after, g.StandsBefore resolve w after := by
  have hmem : (∃ i, f.write? i = some w) ↔ w ∈ f.writes.toList := by
    rw [List.mem_iff_getElem?]
    simp only [Array.getElem?_toList]
    rfl
  rw [hmem, h.mem_writes]
  constructor
  · intro hinstruction
    obtain ⟨x, hx, hposition, hwrites⟩ := hinstruction
    obtain ⟨before, after, hsplit⟩ := List.append_of_mem hx
    exact ⟨after, before, x, hsplit, hposition, hwrites⟩
  · intro hstands
    obtain ⟨after, before, x, hsplit, hposition, hwrites⟩ := hstands
    refine ⟨x, ?_, hposition, hwrites⟩
    rw [hsplit]
    simp

/-- A fact is the write at the site of its index. -/
theorem Lists.write?_eq_some (h : f.Lists resolve g) {i : Nat} {w : StaticWrite F} :
    f.write? i = some w ↔ ∃ site, g.writeSites[i]? = some site ∧ site.resolved? resolve = some w := by
  have hmap : (g.writeSites[i]?).map (WriteSite.resolved? resolve) = (f.write? i).map some := by
    rw [← List.getElem?_map, h.writes, List.getElem?_map, Array.getElem?_toList, write?]
  rw [← Option.map_eq_some_iff, hmap]
  simp

/-- There are as many facts as static writes. -/
theorem Lists.size_eq (h : f.Lists resolve g) : f.size = g.writeSites.length := by
  have hlength := congrArg List.length h.writes
  rw [List.length_map, List.length_map, Array.length_toList] at hlength
  exact hlength.symm

/-- The positions of the facts are those of the write sites, in order. -/
theorem Lists.get?_positions (h : f.Lists resolve g) (i : Nat) :
    f.positions.get? i = (g.writeSites.map WriteSite.position)[i]? := by
  rw [Ordinals.get?, ← Array.getElem?_toList, h.positions]

/-- The write site of a fact has its position. -/
theorem Lists.position_getElem? (h : f.Lists resolve g) {i : Nat} {w : StaticWrite F}
    (hw : f.write? i = some w) :
    (g.writeSites.map WriteSite.position)[i]? = some w.position := by
  obtain ⟨site, hsite, hresolved⟩ := h.write?_eq_some.mp hw
  rw [List.getElem?_map, hsite, Option.map_some, (WriteSite.node_resolved? hresolved).2]

/-- Facts at one position are one fact. -/
theorem Lists.eq_of_position_eq (h : f.Lists resolve g) {i k : Nat} {w w' : StaticWrite F}
    (hw : f.write? i = some w) (hw' : f.write? k = some w') (heq : w.position = w'.position) :
    i = k := by
  have hi := h.position_getElem? hw
  have hk := h.position_getElem? hw'
  obtain ⟨hlt, -⟩ := List.getElem?_eq_some_iff.mp hi
  apply (List.getElem?_inj hlt h.nodup).mp
  rw [hi, hk, heq]

/-- A fact stands among the facts as its instruction stands in its node: a later fact of the node
writes the field exactly when a later instruction does. -/
theorem Lists.exists_split (h : f.Lists resolve g) {i : Nat} {w : StaticWrite F} {after : List ι}
    (hw : f.write? i = some w) (hstands : g.StandsBefore resolve w after) :
    ∃ earlier later, f.writes.toList = earlier ++ w :: later ∧ earlier.length = i ∧
      ((∀ other ∈ later, other.node = w.node → other.field ≠ w.field) ↔
        ∀ x ∈ after, ¬ Instruction.Writes resolve w.field x) := by
  obtain ⟨before, x, hinstructions, hposition, hwrites⟩ := hstands
  obtain ⟨site, hof, hsite⟩ := WriteSite.of?_resolved?.mpr ⟨rfl, hposition, hwrites⟩
  obtain ⟨earlierSites, laterSites, hsplit, hlater⟩ := FlowGraph.writeSites_split hinstructions hof
  -- the facts are split where the sites are
  have hmap := h.writes
  rw [hsplit, List.map_append, List.map_cons, hsite, eq_comm, List.map_eq_append_iff] at hmap
  obtain ⟨earlier, rest, hall, -, hrest⟩ := hmap
  obtain ⟨w', later, rfl, hw', hrest⟩ := List.map_eq_cons_iff.mp hrest
  obtain rfl : w' = w := Option.some.inj hw'
  have hself : f.write? earlier.length = some w' := by
    rw [write?, ← Array.getElem?_toList, hall]
    simp
  refine ⟨earlier, later, hall, h.eq_of_position_eq hself hw rfl, ?_⟩
  have hmem (other : StaticWrite F) := mem_of_map_resolved? (w := other) hrest.symm
  constructor
  · intro hnone y hy hwritesY
    let other : StaticWrite F := ⟨w'.node, Instruction.position y, w'.field⟩
    obtain ⟨site', hof', hother⟩ :=
      (WriteSite.of?_resolved? (w := other)).mpr ⟨rfl, rfl, hwritesY⟩
    have hsites : site' ∈ after.filterMap (WriteSite.of? w'.node) ++ laterSites :=
      List.mem_append_left _ (List.mem_filterMap.mpr ⟨y, hy, hof'⟩)
    exact hnone other ((hmem other).mpr ⟨site', hsites, hother⟩) rfl rfl
  · intro hclear other hother hnode hfield
    obtain ⟨site', hsites, hresolved⟩ := (hmem other).mp hother
    rcases List.mem_append.mp hsites with hsame | hothers
    · obtain ⟨y, hy, hof'⟩ := List.mem_filterMap.mp hsame
      obtain ⟨-, -, hwritesY⟩ := WriteSite.of?_resolved?.mp ⟨site', hof', hresolved⟩
      exact hclear y hy (hfield ▸ hwritesY)
    · have hsite' := (WriteSite.node_resolved? hresolved).1
      exact hlater site' hothers (hnode ▸ hsite')

end Facts

end ReachingWrites
