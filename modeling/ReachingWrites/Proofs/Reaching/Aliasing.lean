import ReachingWrites.Proofs.Reaching.Positions
import ReachingWrites.Proofs.Reaching.Preparation
import ReachingWrites.Proofs.Fixpoint.Cancellation

/-!
# Resolving references in two ways

A resolution decides which references name the same field. If one resolution takes all references for
the same that another one does, and perhaps more, a write overwrites under it whatever it overwrites
under the other one. So fewer writes reach a place, and those that do reach it under the other one
too. The numbering of the writes is the same, for it looks at positions only.

Nothing but this matters of a resolution: if two of them take the same references for the same, their
analyses pose one problem, whatever their fields are.
-/

set_option autoImplicit false

namespace ReachingWrites

variable {ι ρ F F' : Type} [Instruction ι ρ]

/-! ## One write under two resolutions -/

namespace FlowGraph

/-- References that the graph writes and that the second resolution takes for the same, the first one
takes for the same. -/
def Coarser (g : FlowGraph ι) (coarse : ρ → Option F) (fine : ρ → Option F') : Prop :=
  ∀ site ∈ g.writeSites, ∀ other ∈ g.writeSites,
    fine site.reference = fine other.reference → coarse site.reference = coarse other.reference

instance [DecidableEq F] [DecidableEq F'] (g : FlowGraph ι) (coarse : ρ → Option F)
    (fine : ρ → Option F') : Decidable (g.Coarser coarse fine) :=
  inferInstanceAs (Decidable (∀ site ∈ g.writeSites, ∀ other ∈ g.writeSites,
    fine site.reference = fine other.reference → coarse site.reference = coarse other.reference))

/-- Two writes are what stands at one site of a graph under two resolutions. -/
structure Twins (g : FlowGraph ι) (coarse : ρ → Option F) (fine : ρ → Option F')
    (w : StaticWrite F) (w' : StaticWrite F') (site : WriteSite ρ) : Prop where
  mem : site ∈ g.writeSites
  first : site.resolved? coarse = some w
  second : site.resolved? fine = some w'

end FlowGraph

section Twins

variable {g : FlowGraph ι} {coarse : ρ → Option F} {fine : ρ → Option F'} {w : StaticWrite F}
  {w' : StaticWrite F'} {site : WriteSite ρ} (h : g.Twins coarse fine w w' site)
include h

private theorem FlowGraph.Twins.symm : g.Twins fine coarse w' w site := ⟨h.mem, h.second, h.first⟩

private theorem FlowGraph.Twins.node_eq : w'.node = w.node := by
  rw [(WriteSite.node_resolved? h.second).1, (WriteSite.node_resolved? h.first).1]

private theorem FlowGraph.Twins.position_eq : w'.position = w.position := by
  rw [(WriteSite.node_resolved? h.second).2, (WriteSite.node_resolved? h.first).2]

/-- Twins stand before the same instructions. -/
theorem FlowGraph.Twins.standsBefore (hdistinct : (g.writeSites.map WriteSite.position).Nodup)
    {after : List ι} (hstands : g.StandsBefore coarse w after) : g.StandsBefore fine w' after := by
  obtain ⟨before, x, hsplit, hposition, reference, hreference, -⟩ := hstands
  have hx : x ∈ g.instructions w.node := by
    rw [hsplit]
    exact List.mem_append_right _ List.mem_cons_self
  -- no other site is at the position, so the instruction writes the reference of this one
  have hsite : (⟨w.node, Instruction.position x, reference⟩ : WriteSite ρ) = site :=
    List.inj_on_of_nodup_map hdistinct (FlowGraph.mem_writeSites_of_staticWrite? hx hreference) h.mem
      (hposition.trans (WriteSite.node_resolved? h.first).2)
  refine ⟨before, x, ?_, ?_, reference, hreference, ?_⟩
  · rw [h.node_eq, hsplit]
  · rw [h.position_eq, hposition]
  · have hresolves := WriteSite.resolve_reference h.second
    rwa [← hsite] at hresolves

variable (hle : g.Coarser coarse fine)
include hle

/-- An instruction that writes the field under the fine resolution writes it under the coarse one. -/
theorem FlowGraph.Twins.writes {n : NodeId} {x : ι} (hx : x ∈ g.instructions n)
    (hwrites : Instruction.Writes fine w'.field x) : Instruction.Writes coarse w.field x := by
  obtain ⟨reference, hreference, hfine⟩ := hwrites
  have hsame := hle _ (FlowGraph.mem_writeSites_of_staticWrite? hx hreference) site h.mem
    (hfine.trans (WriteSite.resolve_reference h.second).symm)
  exact ⟨reference, hreference, hsame.trans (WriteSite.resolve_reference h.first)⟩

private theorem FlowGraph.Twins.clear {n : NodeId} (hclear : g.Clear coarse w.field n) :
    g.Clear fine w'.field n :=
  fun x hx hwrites => hclear x hx (h.writes hle hx hwrites)

private theorem FlowGraph.Twins.clear_after {after : List ι} (hstands : g.StandsBefore coarse w after)
    (hafter : ∀ x ∈ after, ¬ Instruction.Writes coarse w.field x) :
    ∀ x ∈ after, ¬ Instruction.Writes fine w'.field x := by
  obtain ⟨before, y, hsplit, -⟩ := hstands
  intro x hx hwrites
  have hmem : x ∈ g.instructions w.node := by
    rw [hsplit]
    exact List.mem_append_right _ (List.mem_cons_of_mem _ hx)
  exact hafter x hx (h.writes hle hmem hwrites)

/-- What reaches the entry of a node under the coarse resolution reaches it under the fine one. -/
theorem FlowGraph.Twins.reachesEntry {after : List ι} (hstands : g.StandsBefore coarse w after)
    {n : NodeId} (hreaches : g.ReachesEntry coarse w after n) : g.ReachesEntry fine w' after n := by
  obtain ⟨hafter, inner, hpath, hinner⟩ := hreaches
  refine ⟨h.clear_after hle hstands hafter, inner, ?_, fun m hm => h.clear hle (hinner m hm)⟩
  rw [h.node_eq]
  exact hpath

/-- What reaches the exit of a node under the coarse resolution reaches it under the fine one. -/
theorem FlowGraph.Twins.reachesExit {after : List ι} (hstands : g.StandsBefore coarse w after)
    {n : NodeId} (hreaches : g.ReachesExit coarse w after n) : g.ReachesExit fine w' after n := by
  rcases hreaches with ⟨rfl, hafter⟩ | ⟨hentry, hclear⟩
  · exact .inl ⟨h.node_eq.symm, h.clear_after hle hstands hafter⟩
  · exact .inr ⟨h.reachesEntry hle hstands hentry, h.clear hle hclear⟩

end Twins

/-! ## The facts of two resolutions -/

namespace Facts

variable [DecidableEq F] [DecidableEq F'] {g : FlowGraph ι} {coarse : ρ → Option F}
  {fine : ρ → Option F'} {f : Facts F} {f' : Facts F'} (h : f.Lists coarse g)
  (h' : f'.Lists fine g)
include h h'

private theorem Lists.positions_eq : f.positions = f'.positions :=
  Ordinals.eq_of_values_eq (Array.toList_inj.mp (h.positions.trans h'.positions.symm))

/-- A fact has a twin at its index. -/
theorem Lists.exists_twin {i : Nat} {w : StaticWrite F} (hw : f.write? i = some w) :
    ∃ w' site, f'.write? i = some w' ∧ g.Twins coarse fine w w' site := by
  obtain ⟨site, hsite, hfirst⟩ := h.write?_eq_some.mp hw
  have hmem := List.mem_of_getElem? hsite
  have hsome : site.resolved? fine ∈ f'.writes.toList.map some := by
    rw [← h'.writes]
    exact List.mem_map_of_mem hmem
  obtain ⟨w', -, hw'⟩ := List.mem_map.mp hsome
  exact ⟨w', site, h'.write?_eq_some.mpr ⟨site, hsite, hw'.symm⟩, hmem, hfirst, hw'.symm⟩

/-- The facts of an index stand at one place. -/
theorem Lists.place_eq (i : Nat) : (f.write? i).map (fun w => (w.node, w.position)) =
    (f'.write? i).map fun w => (w.node, w.position) := by
  cases hw : f.write? i with
  | some w =>
    obtain ⟨w', site, hw', htwins⟩ := h.exists_twin h' hw
    rw [hw', Option.map_some, Option.map_some, htwins.node_eq, htwins.position_eq]
  | none =>
    cases hw' : f'.write? i with
    | none => rfl
    | some w' =>
      obtain ⟨w, -, hsome, -⟩ := h'.exists_twin h hw'
      rw [hw] at hsome
      cases hsome

/-- What the fine resolution takes for a write of a field, the coarse one does too. -/
theorem Lists.mem_writesOf_of_twins (hle : g.Coarser coarse fine) {w : StaticWrite F}
    {w' : StaticWrite F'} {site : WriteSite ρ} (htwins : g.Twins coarse fine w w' site) {i : Nat}
    (hi : i ∈ (f'.writesOf? w'.field).getD (BitSet.empty f'.size)) :
    i ∈ (f.writesOf? w.field).getD (BitSet.empty f.size) := by
  obtain ⟨v', hv', hfield⟩ := (h'.indexed.mem_writesOf w'.field i).mp hi
  obtain ⟨v, site', hv, htwins'⟩ := h'.exists_twin h hv'
  refine (h.indexed.mem_writesOf w.field i).mpr ⟨v, hv, ?_⟩
  have hfine : fine site'.reference = fine site.reference := by
    rw [WriteSite.resolve_reference htwins'.first, WriteSite.resolve_reference htwins.second, hfield]
  have hcoarse := hle site' htwins'.mem site htwins.mem hfine
  rw [WriteSite.resolve_reference htwins'.second, WriteSite.resolve_reference htwins.first] at hcoarse
  exact Option.some.inj hcoarse

variable (hle : g.Coarser coarse fine) (hge : g.Coarser fine coarse)
include hle hge

private theorem Lists.transferOf_eq {w : StaticWrite F} {w' : StaticWrite F'} {site : WriteSite ρ}
    (htwins : g.Twins coarse fine w w' site) (i : Nat) : f.transferOf w i = f'.transferOf w' i := by
  have hsize : f.size = f'.size := h.size_eq.trans h'.size_eq.symm
  have hfits : BitSet.Fits f'.size ((f.writesOf? w.field).getD (BitSet.empty f.size)) := by
    simpa only [hsize] using h.indexed.fits_writesOf w.field
  have hkill := hfits.ext (h'.indexed.fits_writesOf w'.field) fun i =>
    ⟨h'.mem_writesOf_of_twins h hge htwins.symm, h.mem_writesOf_of_twins h' hle htwins⟩
  rw [transferOf, transferOf, hkill, hsize]

end Facts

/-- A set of the coarse resolution is part of one of the fine resolution if what it collects is what the
other one collects too. -/
theorem FactSet.Collects.subset [DecidableEq F] [DecidableEq F'] {g : FlowGraph ι}
    {coarse : ρ → Option F} {fine : ρ → Option F'} {s : FactSet F} {s' : FactSet F'}
    {P : StaticWrite F → List ι → Prop} {P' : StaticWrite F' → List ι → Prop}
    (h : s.Collects coarse g P) (h' : s'.Collects fine g P')
    (hP : ∀ {w w' site after}, g.Twins coarse fine w w' site → g.StandsBefore coarse w after →
      P w after → P' w' after) : s.toList ⊆ s'.toList := by
  intro i hi
  rw [FactSet.mem_toList, h.mem_members] at hi
  obtain ⟨w, after, hw, hstands, hin⟩ := hi
  obtain ⟨w', site, hw', htwins⟩ := h.facts.exists_twin h'.facts hw
  rw [FactSet.mem_toList, h'.mem_members]
  exact ⟨w', after, hw', htwins.standsBefore h.facts.nodup hstands, hP htwins hstands hin⟩

/-! ## The blocks -/

/-- The transfers of the single writes, each with its node, in the order of the facts. -/
def Facts.appended [DecidableEq F] (f : Facts F) : List (NodeId × Transfer) :=
  f.writes.toList.zipIdx.map fun (write, i) => (write.node, f.transferOf write i)

private theorem Facts.getElem?_appended [DecidableEq F] (f : Facts F) (i : Nat) :
    f.appended[i]? = (f.write? i).map fun w => (w.node, f.transferOf w i) := by
  rw [appended, List.getElem?_map, List.getElem?_zipIdx, Array.getElem?_toList, write?,
    Option.map_map, Nat.zero_add]
  rfl

private theorem BlockTransfers.ofFacts_eq_foldl [DecidableEq F] (count : Nat) (f : Facts F) :
    ofFacts count f = f.appended.foldl (fun t next => t.append next.1 next.2) (identities count) := by
  rw [Facts.appended, List.foldl_map]
  rfl

namespace Analysis

variable [DecidableEq F] [DecidableEq F'] {g : FlowGraph ι} {coarse : ρ → Option F}
  {fine : ρ → Option F'} {a : Analysis ι F} {b : Analysis ι F'}

/-- Two resolutions that take the same references for the same have the same transfers. -/
theorem Prepared.transfers_eq (h : a.Prepared coarse g) (h' : b.Prepared fine g)
    (hle : g.Coarser coarse fine) (hge : g.Coarser fine coarse) : a.transfers = b.transfers := by
  have happended : a.facts.appended = b.facts.appended := by
    apply List.ext_getElem?
    intro i
    rw [Facts.getElem?_appended, Facts.getElem?_appended]
    cases hw : a.facts.write? i with
    | none =>
      have hplace := h.facts.place_eq h'.facts i
      rw [hw, Option.map_none, eq_comm, Option.map_eq_none_iff] at hplace
      rw [hplace]
      rfl
    | some w =>
      obtain ⟨w', site, hw', htwins⟩ := h.facts.exists_twin h'.facts hw
      rw [hw', Option.map_some, Option.map_some, htwins.node_eq,
        h.facts.transferOf_eq h'.facts hle hge htwins]
  rw [h.transfers, h'.transfers, BlockTransfers.ofFacts_eq_foldl, BlockTransfers.ofFacts_eq_foldl,
    happended]

/-- Two resolutions that take the same references for the same pose one problem. -/
theorem Prepared.problem_eq (h : a.Prepared coarse g) (h' : b.Prepared fine g)
    (hle : g.Coarser coarse fine) (hge : g.Coarser fine coarse) :
    a.problem = b.problem ∧ a.turns = b.turns := by
  have hsize : a.facts.size = b.facts.size := h.facts.size_eq.trans h'.facts.size_eq.symm
  have hgraph : a.graph = b.graph := h.graph.trans h'.graph.symm
  have hpredecessors : a.predecessors = b.predecessors := by
    have hofGraph := h.predecessors
    rw [hgraph, h'.predecessors] at hofGraph
    exact (Except.ok.inj hofGraph).symm
  constructor
  · simp only [problem, transfer, hsize, hgraph, hpredecessors, h.transfers_eq h' hle hge]
  · simp only [turns, hsize, hgraph]

section Solve

variable {options : SolveOptions} {signal signal' : Option (Signal BitSet)} {report : Report F}
  {report' : Report F'}

/-- Under the coarse resolution, no more facts reach the entry or the exit of a node. -/
theorem Prepared.facts_subset (h : a.Prepared coarse g) (h' : b.Prepared fine g)
    (hle : g.Coarser coarse fine) {options' : SolveOptions}
    (hr : a.solve? options signal = some report) {r : ReachingSets F} (hok : report.outcome = .ok r)
    (hr' : b.solve? options' signal' = some report') {r' : ReachingSets F'}
    (hok' : report'.outcome = .ok r') {n : NodeId} (hn : n < g.nodeCount) :
    ∃ entry exit entry' exit', r.inFacts? n = some entry ∧ r.outFacts? n = some exit ∧
      r'.inFacts? n = some entry' ∧ r'.outFacts? n = some exit' ∧
      entry.toList ⊆ entry'.toList ∧ exit.toList ⊆ exit'.toList := by
  obtain ⟨entry, exit, hentry, hexit, -, -, hin, hout⟩ := h.exists_facts hr hok hn
  obtain ⟨entry', exit', hentry', hexit', -, -, hin', hout'⟩ := h'.exists_facts hr' hok' hn
  exact ⟨entry, exit, entry', exit', hentry, hexit, hentry', hexit',
    hin.subset hin' fun htwins hstands => htwins.reachesEntry hle hstands,
    hout.subset hout' fun htwins hstands => htwins.reachesExit hle hstands⟩

omit [DecidableEq F] [DecidableEq F'] in
/-- Analyses that pose one problem and may take as many turns fail alike and tell the same. -/
theorem solve?_of_problem_eq (hproblem : a.problem = b.problem) (hturns : a.turns = b.turns)
    (hr : a.solve? options signal = some report) :
    ∃ report', b.solve? options signal = some report' ∧ report.journal = report'.journal ∧
      ∀ failure, report.outcome = .error failure ↔ report'.outcome = .error failure := by
  obtain ⟨run, hrun, rfl⟩ := Option.map_eq_some_iff.mp hr
  rw [hproblem, hturns] at hrun
  refine ⟨_, Option.map_eq_some_iff.mpr ⟨run, hrun, rfl⟩, rfl, fun failure => ?_⟩
  cases run.outcome with
  | ok solution => exact ⟨nofun, nofun⟩
  | error cause => simp

omit [DecidableEq F] [DecidableEq F'] in
/-- Analyses that pose one problem have the same sets, even under different signals. -/
theorem sets_eq_of_problem_eq (hproblem : a.problem = b.problem)
    (hr : a.solve? options signal = some report) {r : ReachingSets F} (hok : report.outcome = .ok r)
    (hr' : b.solve? options signal' = some report') {r' : ReachingSets F'}
    (hok' : report'.outcome = .ok r') :
    r.ins = r'.ins ∧ r.outs = r'.outs ∧ r.summary = r'.summary := by
  obtain ⟨run, solution, hends, hrun, rfl⟩ := solve?_eq_ok hr hok
  obtain ⟨run', solution', hends', hrun', rfl⟩ := solve?_eq_ok hr' hok'
  rw [hproblem] at hends
  obtain rfl := hends.ok_unique hends' hrun hrun'
  exact ⟨rfl, rfl, rfl⟩

end Solve

end Analysis

/-! ## Two resolutions of a graph -/

/-- Where both of two resolutions resolve all writes, a graph has a fault under one of them if it has it
under the other. -/
theorem FlowGraph.FirstFault.of_resolves [Describe ρ] {g : FlowGraph ι} {resolve : ρ → Option F}
    {resolve' : ρ → Option F'} (h : ∀ site ∈ g.writeSites, (resolve site.reference).isSome)
    (h' : ∀ site ∈ g.writeSites, (resolve' site.reference).isSome) {failure : AnalysisFailure}
    (hfault : g.FirstFault resolve failure) : g.FirstFault resolve' failure := by
  cases hfault with
  | edge first => exact .edge first
  | position inside write first taken =>
    refine .position inside write (fun earlier hlt position reference hwrite => ?_) taken
    exact ⟨(first earlier hlt position reference hwrite).1, h' _ hwrite.mem_writeSites⟩
  | field _ write _ _ unresolved =>
    have hresolves := h _ write.mem_writeSites
    rw [unresolved] at hresolves
    cases hresolves

/-- Two resolutions of all writes of a graph, of which one takes all references for the same that the
other one does: either the graph has the same fault under both, or both number the same facts, and no
more of them reach a place under the coarser one, whatever the options. If each is coarser than the
other, the transfers are the same, and with the same options so are the sets and the summary, even
under different signals; under one signal both fail alike and tell the same. -/
theorem Analysis.prepare_coarser [DecidableEq F] [DecidableEq F'] [Describe ρ] {g : FlowGraph ι}
    {coarse : ρ → Option F} {fine : ρ → Option F'}
    (hcoarse : ∀ site ∈ g.writeSites, (coarse site.reference).isSome)
    (hfine : ∀ site ∈ g.writeSites, (fine site.reference).isSome) (hle : g.Coarser coarse fine) :
    (∀ failure, prepare coarse g = .error failure ↔ prepare fine g = .error failure) ∧
    ∀ a b, prepare coarse g = .ok a → prepare fine g = .ok b →
      a.facts.positions = b.facts.positions ∧
      (∀ i, (a.facts.write? i).map (fun w => (w.node, w.position)) =
        (b.facts.write? i).map fun w => (w.node, w.position)) ∧
      (∀ options options' signal signal' report report' r r',
        a.solve? options signal = some report → report.outcome = .ok r →
        b.solve? options' signal' = some report' → report'.outcome = .ok r' →
        ∀ n < g.nodeCount, ∃ entry exit entry' exit',
          r.inFacts? n = some entry ∧ r.outFacts? n = some exit ∧
          r'.inFacts? n = some entry' ∧ r'.outFacts? n = some exit' ∧
          entry.toList ⊆ entry'.toList ∧ exit.toList ⊆ exit'.toList) ∧
      (g.Coarser fine coarse →
        (∀ n, a.transfer n = b.transfer n) ∧
        (∀ options signal signal' report report' r r',
          a.solve? options signal = some report → report.outcome = .ok r →
          b.solve? options signal' = some report' → report'.outcome = .ok r' →
          r.ins = r'.ins ∧ r.outs = r'.outs ∧ r.summary = r'.summary) ∧
        ∀ options signal, ∃ report report',
          a.solve? options signal = some report ∧ b.solve? options signal = some report' ∧
          report.journal = report'.journal ∧
          ∀ failure, report.outcome = .error failure ↔ report'.outcome = .error failure) := by
  constructor
  · intro failure
    rw [prepare_eq_error_iff, prepare_eq_error_iff]
    exact ⟨.of_resolves hcoarse hfine, .of_resolves hfine hcoarse⟩
  intro a b ha hb
  have h := prepared_of_prepare ha
  have h' := prepared_of_prepare hb
  refine ⟨h.facts.positions_eq h'.facts, h.facts.place_eq h'.facts, ?_, ?_⟩
  · intro _ _ _ _ _ _ _ _ hr hok hr' hok' n hn
    exact h.facts_subset h' hle hr hok hr' hok' hn
  · intro hge
    obtain ⟨hproblem, hturns⟩ := h.problem_eq h' hle hge
    refine ⟨fun n => ?_, ?_, fun options signal => ?_⟩
    · rw [transfer, transfer, h.transfers_eq h' hle hge]
    · intro _ _ _ _ _ _ _ hr hok hr' hok'
      exact sets_eq_of_problem_eq hproblem hr hok hr' hok'
    · obtain ⟨report, hr⟩ : ∃ report, a.solve? options signal = some report := h.exists_report
      obtain ⟨report', hr', hsame⟩ := solve?_of_problem_eq hproblem hturns hr
      exact ⟨report, report', hr, hr', hsame⟩

/-- With the classes told apart, a loop kills its own writes only, and without them the first write of
the field too. What a field is does not matter. -/
theorem Analysis.writingLoop_coarser : ∃ a b c,
    prepare FieldRef.byName .writingLoop = .ok a ∧ prepare some .writingLoop = .ok b ∧
      prepare (fun r => some r.name.toList) .writingLoop = .ok c ∧
        a.facts.positions = b.facts.positions ∧
          a.transfer 1 = .killGen ⟨3, #[7]⟩ ⟨3, #[6]⟩ ∧ b.transfer 1 = .killGen ⟨3, #[6]⟩ ⟨3, #[6]⟩ ∧
            ∀ n, a.transfer n = c.transfer n := by
  have hready {F : Type} [DecidableEq F] {resolve : FieldRef → Option F} {t : Transfer}
      (h : ((prepare resolve .writingLoop).toOption.map fun a => a.transfer 1) = some t) :
      ∃ a, prepare resolve .writingLoop = .ok a ∧ a.transfer 1 = t := by
    obtain ⟨a, ha, ht⟩ := Option.map_eq_some_iff.mp h
    exact ⟨a, toOption_eq_some.mp ha, ht⟩
  obtain ⟨a, ha, hta⟩ : ∃ a, prepare FieldRef.byName .writingLoop = .ok a ∧
      a.transfer 1 = .killGen ⟨3, #[7]⟩ ⟨3, #[6]⟩ := hready (by decide +kernel)
  obtain ⟨b, hb, htb⟩ : ∃ b, prepare some .writingLoop = .ok b ∧
      b.transfer 1 = .killGen ⟨3, #[6]⟩ ⟨3, #[6]⟩ := hready (by decide +kernel)
  obtain ⟨c, hc, -⟩ : ∃ c, prepare (fun r => some r.name.toList) .writingLoop = .ok c ∧
      c.transfer 1 = .killGen ⟨3, #[7]⟩ ⟨3, #[6]⟩ := hready (by decide +kernel)
  obtain ⟨hpositions, -⟩ :=
    (prepare_coarser (by decide +kernel) (by decide +kernel) (by decide +kernel)).2 a b ha hb
  obtain ⟨-, -, -, hsame⟩ :=
    (prepare_coarser (by decide +kernel) (by decide +kernel) (by decide +kernel)).2 a c ha hc
  exact ⟨a, b, c, ha, hb, hc, hpositions, hta, htb, (hsame (by decide +kernel)).1⟩

end ReachingWrites
