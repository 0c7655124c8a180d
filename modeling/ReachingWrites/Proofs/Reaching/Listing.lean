import Mathlib.Algebra.BigOperators.Group.Finset.Basic
import ReachingWrites.Proofs.Reaching.Queries
import ReachingWrites.Proofs.Text.Lines
import ReachingWrites.Proofs.Text.Readings
import ReachingWrites.Reaching.Listing

/-!
# What a listing says

A listing has for each node a line with its successors, a line for each of its instructions, and the
two lines of its facts, and it has no other lines, whatever names the instructions hold: names come
between quotes, and quoted text has no newline.

The facts of a place are listed by putting its members and its positions side by side. The positions
are looked up on their own and pass over a member that has none, so one such member would give every
later one the position of another. `FactSet.Listed` says that this does not happen in a result: each
member is listed with the position that its index leads to.

A listing has one reading. Where a node begins, which successors it has, at which positions its
instructions stand and which facts are listed can be told from the text, so that two graphs with
results that have one listing agree in all this (`Listing.Alike`). The graph that is listed need not
be the one that was analysed.
-/

set_option autoImplicit false

namespace ReachingWrites

variable {ι ρ F F' : Type}

open Text (OneLine)

/-! ## Labels -/

private theorem NodeId.toList_label (n : NodeId) :
    (NodeId.label n).toList = 'b' :: 'b' :: Nat.toDigits 10 n := by
  show ("bb" ++ toString n).toList = _
  rw [String.toList_append, Text.toList_toString_nat]
  rfl

private theorem NodeId.label_inj {m n : NodeId}
    (same : (NodeId.label m).toList = (NodeId.label n).toList) : m = n := by
  rw [toList_label, toList_label, List.cons.injEq, List.cons.injEq] at same
  exact Text.toDigits_inj same.2.2

private theorem NodeId.oneLine_label (n : NodeId) : OneLine (NodeId.label n) :=
  OneLine.append (by decide) (Text.oneLine_toString_nat n)

private theorem Position.toList_label (p : Position) :
    p.label.toList = '@' :: Nat.toDigits 10 p.number := by
  show ("@" ++ toString p.number).toList = _
  rw [String.toList_append, Text.toList_toString_nat]
  rfl

private theorem Position.eq_of_number {p q : Position} (h : p.number = q.number) : p = q := by
  cases p
  cases q
  exact congrArg Position.mk h

private theorem Position.oneLine_label (p : Position) : OneLine p.label :=
  OneLine.append (by decide) (Text.oneLine_toString_nat p.number)

/-! ## Instructions on one line -/

private theorem FieldRef.oneLine_describe (r : FieldRef) : OneLine (describe r) := by
  refine Text.oneLine_record (by decide) ?_
  simp only [List.forall_mem_cons]
  exact ⟨⟨by decide, Text.oneLine_quoted r.className⟩, ⟨by decide, Text.oneLine_quoted r.name⟩,
    by simp⟩

private theorem InstrKind.oneLine_describe (kind : InstrKind) : OneLine (describe kind) := by
  have hfield : ∀ {name : String} (field : FieldRef), OneLine name →
      OneLine (Text.tuple name [describe field]) := fun field hname =>
    Text.oneLine_tuple hname (List.forall_mem_singleton.mpr field.oneLine_describe)
  cases kind with
  | putStatic field => exact hfield field (by decide)
  | putInstance field => exact hfield field (by decide)
  | getStatic field => exact hfield field (by decide)
  | other => decide

/-- An instruction is shown on one line, whatever its field is named. -/
theorem Instr.oneLine_describe (i : Instr) : OneLine (describe i) := by
  have hposition : OneLine (describe i.position) :=
    Text.oneLine_tuple (by decide)
      (List.forall_mem_singleton.mpr (Text.oneLine_toString_nat i.position.number))
  refine Text.oneLine_record (by decide) ?_
  simp only [List.forall_mem_cons]
  exact ⟨⟨by decide, hposition⟩, ⟨by decide, i.kind.oneLine_describe⟩, by simp⟩

/-! ## The facts of a place -/

/-- An entry of a listing: a fact by its index, and a position. -/
def Listing.entryText (e : Nat × Position) : String := toString e.1 ++ e.2.label

namespace FactSet

/-- The members, each with the position that its index leads to. -/
def entries (s : FactSet F) : List (Nat × Position) :=
  s.toList.filterMap fun i => (s.facts.positions.get? i).map fun p => (i, p)

/-- The facts at a place are listed as they are. -/
structure Listed (s : FactSet F) (r : ReachingSets F) : Prop where
  /-- The entries that are shown are those of the members. -/
  text : s.listed = Text.set (s.entries.map Listing.entryText)
  /-- Each member has an entry, and no other index has one. -/
  members : s.entries.map Prod.fst = s.toList
  /-- The members ascend. -/
  ascending : s.toList.Pairwise (· < ·)
  /-- Each entry has the position of its own fact. -/
  positions : ∀ e ∈ s.entries, r.factAt? e.1 = some e.2

section Entries

variable {s : FactSet F} (found : ∀ i ∈ s.toList, (s.facts.positions.get? i).isSome = true)
include found

/-- If each member has a position, the positions that are looked up on their own stand beside their
members. -/
private theorem zip_positions : s.toList.zip s.positions = s.entries := by
  unfold positions entries
  generalize s.toList = members at found
  induction members with
  | nil => rfl
  | cons i members ih =>
    rw [List.forall_mem_cons] at found
    obtain ⟨p, hp⟩ := Option.isSome_iff_exists.mp found.1
    rw [List.filterMap_cons_some hp, List.zip_cons_cons, ih found.2,
      List.filterMap_cons_some (by rw [hp, Option.map_some])]

private theorem map_fst_entries : s.entries.map Prod.fst = s.toList := by
  rw [entries, List.map_filterMap]
  calc s.toList.filterMap _
      = s.toList.filterMap some := List.filterMap_congr fun i hi => by
        obtain ⟨p, hp⟩ := Option.isSome_iff_exists.mp (found i hi)
        rw [hp]
        rfl
    _ = s.toList := List.filterMap_some

end Entries

/-- Over the facts of a graph, a set of fact indices is listed as it is. -/
private theorem listed_of_fits [Instruction ι ρ] [DecidableEq F] {s : FactSet F}
    {resolve : ρ → Option F} {g : FlowGraph ι} (hfacts : s.facts.Lists resolve g)
    (hfits : s.members.Fits s.facts.size) {r : ReachingSets F} (hr : r.facts = s.facts) :
    s.Listed r := by
  have found : ∀ i ∈ s.toList, (s.facts.positions.get? i).isSome = true := fun i hi =>
    hfacts.isSome_get?_positions (lt_of_mem_toList hfits hi)
  refine ⟨?_, map_fst_entries found, s.members.pairwise_toList, ?_⟩
  · rw [listed, zip_positions found]
    rfl
  · intro e he
    obtain ⟨i, -, hentry⟩ := List.mem_filterMap.mp he
    obtain ⟨p, hp, rfl⟩ := Option.map_eq_some_iff.mp hentry
    rw [ReachingSets.factAt?, hr]
    exact hp

end FactSet

/-! ## The results that are listed -/

/-- The results that solves return, of whatever graphs. -/
inductive ReachingSets.Returned [DecidableEq F] : ReachingSets F → Prop where
  | intro {ι ρ : Type} [Instruction ι ρ] [Describe ρ] {resolve : ρ → Option F} {g : FlowGraph ι}
      {a : Analysis ι F} {options : SolveOptions} {signal : Option (Signal BitSet)}
      {report : Report F} {r : ReachingSets F} (ha : Analysis.prepare resolve g = .ok a)
      (hr : a.solve? options signal = some report) (hok : report.outcome = .ok r) : Returned r

/-- A result has as many sets at the exits as at the entries, and all of them are listed as they
are. -/
theorem ReachingSets.Returned.listed [DecidableEq F] {r : ReachingSets F} (h : r.Returned) :
    r.outs.size = r.nodeCount ∧
      ∀ n s, r.inFacts? n = some s ∨ r.outFacts? n = some s → s.Listed r := by
  obtain ⟨ha, hr, hok⟩ := h
  have hprepared := Analysis.prepared_of_prepare ha
  obtain ⟨hins, houts, hfacts, hfits⟩ := hprepared.sizes_and_fits hr hok
  refine ⟨houts.trans hins.symm, fun n s hs => ?_⟩
  obtain ⟨hsame, hmembers⟩ := hfits n s hs
  rw [← hsame] at hmembers
  exact FactSet.listed_of_fits (hsame ▸ hprepared.facts) hmembers (hfacts.trans hsame.symm)

namespace Listing

/-! ## The lines of a listing -/

section Lines

variable (g : FlowGraph Instr) (r : ReachingSets F)

/-- The lines of a node after the first one. -/
def body (n : NodeId) : List String :=
  (g.instructions n).map instructionLine ++
    ["  in  " ++ factsText (r.inFacts? n), "  out " ++ factsText (r.outFacts? n)]

/-- All lines, those of node after node. -/
def lines : List String := g.nodes.flatMap (nodeLines g r)

private theorem render_eq : render g r = Text.endLines (lines g r) := rfl

private theorem oneLine_factsText (s : Option (FactSet F)) : OneLine (factsText s) := by
  cases s with
  | none => exact (by decide : OneLine "-")
  | some s =>
    refine Text.oneLine_set fun item hitem => ?_
    obtain ⟨fact, -, rfl⟩ := List.mem_map.mp hitem
    exact (Text.oneLine_toString_nat fact.1).append fact.2.oneLine_label

private theorem oneLine_nodeLine (n : NodeId) : OneLine (nodeLine g n) := by
  have hlabel : OneLine n.label := n.oneLine_label
  unfold nodeLine
  split
  next => exact hlabel
  next successors _ =>
    refine (hlabel.append (by decide)).append (Text.oneLine_join fun item hitem => ?_)
    obtain ⟨target, -, rfl⟩ := List.mem_map.mp hitem
    exact OneLine.append (by decide) target.oneLine_label

private theorem oneLine_instructionLine (i : Instr) : OneLine (instructionLine i) :=
  ((OneLine.append (by decide) (Position.oneLine_label _)).append (by decide)).append
    i.oneLine_describe

/-- No line of a listing holds a newline. -/
theorem oneLine_of_mem_lines {line : String} (h : line ∈ lines g r) : OneLine line := by
  obtain ⟨n, -, hline⟩ := List.mem_flatMap.mp h
  rw [nodeLines, List.mem_cons, List.mem_append, List.mem_map] at hline
  rcases hline with rfl | ⟨i, -, rfl⟩ | hfacts
  · exact oneLine_nodeLine g n
  · exact oneLine_instructionLine i
  · simp only [List.mem_cons, List.not_mem_nil, or_false] at hfacts
    rcases hfacts with rfl | rfl
    · exact OneLine.append (by decide) (oneLine_factsText _)
    · exact OneLine.append (by decide) (oneLine_factsText _)

/-- A node has three lines and one for each instruction. -/
theorem length_lines :
    (lines g r).length = ∑ n ∈ Finset.range g.nodeCount, (3 + (g.instructions n).length) := by
  unfold lines FlowGraph.nodes
  induction g.nodeCount with
  | zero => rfl
  | succ count ih =>
    rw [List.range_succ, List.flatMap_append, List.length_append, ih, Finset.sum_range_succ,
      List.flatMap_singleton, nodeLines]
    simp only [List.length_cons, List.length_append, List.length_map, List.length_nil]
    omega

end Lines

/-! ## What is read from a line -/

private theorem targets_inj {targets targets' : List NodeId}
    (same : (targets.flatMap fun s => ' ' :: (NodeId.label s).toList) =
      targets'.flatMap fun s => ' ' :: (NodeId.label s).toList) : targets = targets' := by
  have hblank : ∀ {targets : List NodeId},
      ∀ item ∈ targets.map fun s => (NodeId.label s).toList, ' ' ∉ item := by
    intro targets item hitem hmem
    obtain ⟨s, -, rfl⟩ := List.mem_map.mp hitem
    rw [NodeId.toList_label] at hmem
    simp only [List.mem_cons, Char.reduceEq, false_or] at hmem
    exact Text.notMem_toDigits (by decide) s hmem
  have hitems : ∀ {targets : List NodeId}, (targets.flatMap fun s => ' ' :: (NodeId.label s).toList) =
      (targets.map fun s => (NodeId.label s).toList).flatMap ([' '] ++ ·) := by
    intro targets
    rw [List.flatMap_map]
    rfl
  rw [hitems, hitems] at same
  have hlabels := Text.flatMap_append_inj hblank hblank same
  exact (List.map_inj_right fun _ _ => NodeId.label_inj).mp hlabels

private theorem toList_nodeLine (g : FlowGraph Instr) (n : NodeId) : (nodeLine g n).toList =
    n.label.toList ++ ((if g.successors n = [] then [] else [' ', '-', '>']) ++
      (g.successors n).flatMap fun s => ' ' :: (NodeId.label s).toList) := by
  unfold nodeLine
  split
  next hnone => simp [hnone]
  next successors hsome =>
    rw [if_neg hsome]
    simp [List.flatMap_map]

/-- The successors of a node are known from its first line. -/
theorem successors_eq_of_nodeLine {g g' : FlowGraph Instr} {n : NodeId}
    (same : nodeLine g n = nodeLine g' n) : g.successors n = g'.successors n := by
  have hlists := congrArg String.toList same
  rw [toList_nodeLine, toList_nodeLine] at hlists
  have harrows := List.append_cancel_left hlists
  cases hs : g.successors n with
  | nil =>
    cases hs' : g'.successors n with
    | nil => rfl
    | cons => simp [hs, hs'] at harrows
  | cons =>
    cases hs' : g'.successors n with
    | nil => simp [hs, hs'] at harrows
    | cons =>
      rw [hs, hs', if_neg (List.cons_ne_nil _ _), if_neg (List.cons_ne_nil _ _)] at harrows
      exact targets_inj (List.append_cancel_left harrows)

private theorem toList_instructionLine (i : Instr) : (instructionLine i).toList =
    [' ', ' ', '@'] ++ (Nat.toDigits 10 i.position.number ++ ' ' :: (describe i).toList) := by
  simp only [instructionLine, String.toList_append, Position.toList_label, Instruction.position]
  simp

/-- The position of an instruction is known from its line. -/
theorem position_eq_of_instructionLine {i j : Instr} (same : instructionLine i = instructionLine j) :
    i.position = j.position := by
  have hlists := congrArg String.toList same
  rw [toList_instructionLine, toList_instructionLine] at hlists
  have hnumber := Text.toDigits_append_inj (List.append_cancel_left hlists)
    (fun c hc => by cases hc; rfl) (fun c hc => by cases hc; rfl)
  exact Position.eq_of_number hnumber.1

private theorem map_position_eq {is js : List Instr}
    (same : is.map instructionLine = js.map instructionLine) :
    is.map Instr.position = js.map Instr.position := by
  induction is generalizing js with
  | nil =>
    rw [List.map_nil, List.nil_eq, List.map_eq_nil_iff] at same
    rw [same]
  | cons i is ih =>
    cases js with
    | nil => cases same
    | cons j js =>
      obtain ⟨hline, hlines⟩ := List.cons.inj same
      rw [List.map_cons, List.map_cons, position_eq_of_instructionLine hline, ih hlines]

private theorem toList_entryText (e : Nat × Position) :
    (entryText e).toList = Nat.toDigits 10 e.1 ++ '@' :: Nat.toDigits 10 e.2.number := by
  rw [entryText, String.toList_append, Text.toList_toString_nat, Position.toList_label]

/-- A fact and its position are known from their entry. -/
theorem entryText_inj {e e' : Nat × Position} (same : entryText e = entryText e') : e = e' := by
  have hlists := congrArg String.toList same
  rw [toList_entryText, toList_entryText] at hlists
  obtain ⟨hindex, hrest⟩ := Text.toDigits_append_inj hlists
    (fun c hc => by cases hc; rfl) (fun c hc => by cases hc; rfl)
  have hnumber := Text.toDigits_inj (List.cons.inj hrest).2
  exact Prod.ext hindex (Position.eq_of_number hnumber)

private theorem toList_set (items : List String) : (Text.set items).toList =
    '{' :: ([',', ' '].intercalate (items.map String.toList) ++ ['}']) := by
  show ("\x7b" ++ ", ".intercalate items ++ "\x7d").toList = _
  simp

/-- The entries are known from the text of a set. -/
theorem entries_inj {entries entries' : List (Nat × Position)}
    (same : Text.set (entries.map entryText) = Text.set (entries'.map entryText)) :
    entries = entries' := by
  have hitem : ∀ {entries : List (Nat × Position)},
      ∀ item ∈ (entries.map entryText).map String.toList, item ≠ [] ∧ ',' ∉ item := by
    intro entries item hitem
    obtain ⟨_, htext, rfl⟩ := List.mem_map.mp hitem
    obtain ⟨e, -, rfl⟩ := List.mem_map.mp htext
    rw [toList_entryText]
    refine ⟨by simp, ?_⟩
    simp only [List.mem_append, List.mem_cons, Char.reduceEq, false_or, not_or]
    exact ⟨Text.notMem_toDigits (by decide) e.1, Text.notMem_toDigits (by decide) e.2.number⟩
  have hlists := congrArg String.toList same
  rw [toList_set, toList_set, List.cons.injEq] at hlists
  have hitems := Text.intercalate_inj hitem hitem (List.append_cancel_right hlists.2)
  have htexts := (List.map_inj_right fun _ _ => String.toList_injective).mp hitems
  exact (List.map_inj_right fun _ _ => entryText_inj).mp htexts

/-- Only a place without facts is shown by a dash. -/
theorem factsText_eq_dash {s : Option (FactSet F)} : factsText s = "-" ↔ s = none := by
  cases s with
  | none => exact iff_of_true rfl rfl
  | some s =>
    refine iff_of_false (fun same => ?_) (Option.some_ne_none s)
    have hlists := congrArg String.toList same
    rw [factsText, FactSet.listed, toList_set] at hlists
    exact absurd (List.cons.inj hlists).1 (by decide)

/-- The entries of a place are known from its text, if its facts are listed as they are. -/
theorem entries_eq_of_factsText {r : ReachingSets F} {r' : ReachingSets F'} {s : Option (FactSet F)}
    {s' : Option (FactSet F')} (h : ∀ t ∈ s, t.Listed r) (h' : ∀ t ∈ s', t.Listed r')
    (same : factsText s = factsText s') : s.map FactSet.entries = s'.map FactSet.entries := by
  cases s with
  | none =>
    rw [factsText_eq_dash.mp same.symm]
    rfl
  | some s =>
    cases s' with
    | none => exact absurd (factsText_eq_dash.mp same) (Option.some_ne_none s)
    | some s' =>
      rw [factsText, factsText, (h s rfl).text, (h' s' rfl).text] at same
      rw [Option.map_some, Option.map_some, entries_inj same]

/-! ## What is read from a listing -/

/-- The parts of a body are known from its lines. -/
private theorem body_inj {g g' : FlowGraph Instr} {r : ReachingSets F} {r' : ReachingSets F'}
    {n : NodeId} (same : body g r n = body g' r' n) :
    (g.instructions n).map instructionLine = (g'.instructions n).map instructionLine ∧
      factsText (r.inFacts? n) = factsText (r'.inFacts? n) ∧
      factsText (r.outFacts? n) = factsText (r'.outFacts? n) := by
  obtain ⟨hinstructions, hfacts⟩ := List.append_inj' same rfl
  rw [List.cons.injEq, List.cons.injEq, String.append_right_inj, String.append_right_inj] at hfacts
  exact ⟨hinstructions, hfacts.1, hfacts.2.1⟩

/-- The line begins as the label of a node does. -/
def beginsNode (line : String) : Bool := line.toList.head? == some 'b'

/-- The lines of the nodes are known from the lines of the listing, for the first line of a node begins
with its label, and the others begin with a blank. -/
private theorem nodes_eq_of_lines {g g' : FlowGraph Instr} {r : ReachingSets F} {r' : ReachingSets F'}
    (same : lines g r = lines g' r') :
    (g.nodes.map fun n => (nodeLine g n, body g r n)) =
      g'.nodes.map fun n => (nodeLine g' n, body g' r' n) := by
  have hheads : ∀ {F : Type} (g : FlowGraph Instr) (r : ReachingSets F),
      ∀ p ∈ g.nodes.map fun n => (nodeLine g n, body g r n),
        beginsNode p.1 = true ∧ ∀ line ∈ p.2, beginsNode line = false := by
    intro F g r p hp
    obtain ⟨n, -, rfl⟩ := List.mem_map.mp hp
    constructor
    · rw [beginsNode, toList_nodeLine, NodeId.toList_label]
      rfl
    · intro line hline
      rw [body, List.mem_append, List.mem_map] at hline
      rcases hline with ⟨i, -, rfl⟩ | hfacts
      · rw [beginsNode, toList_instructionLine]
        rfl
      · simp only [List.mem_cons, List.not_mem_nil, or_false] at hfacts
        rcases hfacts with rfl | rfl
        · rw [beginsNode, String.toList_append]
          rfl
        · rw [beginsNode, String.toList_append]
          rfl
  refine Text.flatMap_cons_inj beginsNode (hheads g r) (hheads g' r') ?_
  rw [List.flatMap_map, List.flatMap_map]
  exact same

/-- Two graphs agree in what a listing says of them, and so do two results: the nodes, their
successors, the positions of their instructions, and for each node the facts at its entry and at its
exit with their positions, or that there are none. -/
structure Alike (g : FlowGraph Instr) (r : ReachingSets F) (g' : FlowGraph Instr)
    (r' : ReachingSets F') : Prop where
  nodeCount : g.nodeCount = g'.nodeCount
  successors : ∀ n < g.nodeCount, g.successors n = g'.successors n
  positions : ∀ n < g.nodeCount,
    (g.instructions n).map Instr.position = (g'.instructions n).map Instr.position
  ins : ∀ n < g.nodeCount,
    (r.inFacts? n).map FactSet.entries = (r'.inFacts? n).map FactSet.entries
  outs : ∀ n < g.nodeCount,
    (r.outFacts? n).map FactSet.entries = (r'.outFacts? n).map FactSet.entries

/-- A listing shows a graph and a result as they are. -/
structure Shows (g : FlowGraph Instr) (r : ReachingSets F) : Prop where
  /-- The listing is the lines of the nodes in order, each ended by a newline. -/
  text : (render g r).toList.splitOn '\n' =
    (g.nodes.flatMap (nodeLines g r)).map String.toList ++ [[]]
  /-- It has three lines for each node and one for each instruction. -/
  count : (render g r).toList.count '\n' =
    ∑ n ∈ Finset.range g.nodeCount, (3 + (g.instructions n).length)
  /-- A dash stands for a node that has no sets. -/
  ins : ∀ n, factsText (r.inFacts? n) = "-" ↔ r.nodeCount ≤ n
  outs : ∀ n, factsText (r.outFacts? n) = "-" ↔ r.nodeCount ≤ n
  /-- The facts of any other node are listed as they are. -/
  listed : ∀ n s, r.inFacts? n = some s ∨ r.outFacts? n = some s → s.Listed r

private theorem shows_of_returned [DecidableEq F] {r : ReachingSets F} (h : r.Returned)
    (g : FlowGraph Instr) : Shows g r where
  text := Text.splitOn_endLines fun _ => oneLine_of_mem_lines g r
  count := by
    rw [render_eq, Text.count_endLines fun _ => oneLine_of_mem_lines g r, length_lines]
  ins n := by
    rw [factsText_eq_dash, ReachingSets.inFacts?_eq_none]
    rfl
  outs n := by
    rw [factsText_eq_dash, ReachingSets.outFacts?_eq_none, h.listed.1]
  listed := h.listed.2

/-- Listings of two graphs with results are the same only if the graphs and the results agree in what
the listings say. -/
theorem alike_of_render_eq [DecidableEq F] [DecidableEq F'] {r : ReachingSets F}
    {r' : ReachingSets F'} (h : r.Returned) (h' : r'.Returned) {g g' : FlowGraph Instr}
    (same : render g r = render g' r') : Alike g r g' r' := by
  have hlines : lines g r = lines g' r' :=
    Text.endLines_inj (fun _ => oneLine_of_mem_lines g r) (fun _ => oneLine_of_mem_lines g' r') same
  have hnodes := nodes_eq_of_lines hlines
  have hcount : g.nodeCount = g'.nodeCount := by
    simpa [FlowGraph.nodes] using congrArg List.length hnodes
  rw [FlowGraph.nodes, FlowGraph.nodes, ← hcount, List.map_inj_left] at hnodes
  have hnode : ∀ n < g.nodeCount, nodeLine g n = nodeLine g' n ∧ body g r n = body g' r' n :=
    fun n hlt => Prod.mk.inj (hnodes n (List.mem_range.mpr hlt))
  exact {
    nodeCount := hcount
    successors := fun n hlt => successors_eq_of_nodeLine (hnode n hlt).1
    positions := fun n hlt => map_position_eq (body_inj (hnode n hlt).2).1
    ins := fun n hlt => entries_eq_of_factsText (fun s hs => h.listed.2 n s (.inl hs))
      (fun s hs => h'.listed.2 n s (.inl hs)) (body_inj (hnode n hlt).2).2.1
    outs := fun n hlt => entries_eq_of_factsText (fun s hs => h.listed.2 n s (.inr hs))
      (fun s hs => h'.listed.2 n s (.inr hs)) (body_inj (hnode n hlt).2).2.2 }

/-- A listing of any graph with any result that a solve returns, be it the result of that graph or of
another one, has for each node in order a line with its successors, one line for each instruction,
and two lines of facts, and no other lines, whatever the names in it hold. The facts of a node without
sets are a dash, and those of any other node are its members in ascending order, each with its own
position. So nothing of this can be forged: two listings are the same text only if they are of as many
nodes, with the same successors, the same positions of instructions, and the same facts with their
positions. -/
theorem render_unforgeable [DecidableEq F] [DecidableEq F'] {r : ReachingSets F}
    {r' : ReachingSets F'} (h : r.Returned) (h' : r'.Returned) (g g' : FlowGraph Instr) :
    Shows g r ∧ (render g r = render g' r' → Alike g r g' r') :=
  ⟨shows_of_returned h g, alike_of_render_eq h h'⟩

/-- The names in this graph hold newlines, and look like lines of a listing. -/
def forgedNames : FlowGraph Instr :=
  ⟨#[⟨[⟨⟨7⟩, .putStatic ⟨"A\n  in  \x7b0@9\x7d", "x\"\nbb1"⟩⟩], [1]⟩, ⟨[], []⟩]⟩

/-- With the result of the loop, they are listed in seven lines, and not as the loop is. -/
theorem forgedNames_listing : ∃ r : ReachingSets String, r.Returned ∧ Shows forgedNames r ∧
    (render forgedNames r).toList.count '\n' = 7 ∧
      render forgedNames r ≠ render .writingLoop r := by
  obtain ⟨a, report, r, ha, hreport, hr, -⟩ := Analysis.exists_writingLoop
  have hreturned : r.Returned := .intro ha hreport hr
  obtain ⟨hshows, halike⟩ := render_unforgeable hreturned hreturned forgedNames .writingLoop
  refine ⟨r, hreturned, hshows, ?_, fun same => ?_⟩
  · rw [hshows.count]
    rfl
  · have hpositions := (halike same).positions 0 (by decide)
    exact absurd hpositions (by decide)

end Listing

end ReachingWrites
