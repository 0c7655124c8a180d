import ReachingWrites.Proofs.Facts.Places
import ReachingWrites.Proofs.Transfer.Blocks

/-!
# The transfer of a block in closed form

The transfers of the blocks come out of one pass over all writes. Here is what they are, without the
pass. A node that is out of range or has no write does nothing. Any other node takes away all facts
of the fields that it writes, those of other nodes too, and adds those of its writes that no later
one of its own takes away. The writes of a node are numbered in its program order, so a later write
is one of a later instruction.

Of each field that the node writes there is then one fact, whatever has entered: that of the last
write (`Facts.Replaces`). And since the transfer is determined by the facts and the node, it does
not matter how many nodes the pass was made for.
-/

set_option autoImplicit false

namespace ReachingWrites

open StaticWrite (WrittenIn Survives writtenIn_concat survives_concat survives_split)

/-! ## The write that survives -/

namespace StaticWrite

variable {F : Type} {writes : List (StaticWrite F)} {n : NodeId} {w v : StaticWrite F} {i j : Nat}

/-- The field of a write that survives in a node is written there. -/
theorem Survives.writtenIn (h : w.Survives writes n i) : WrittenIn writes n w.field :=
  ⟨w, List.mem_of_getElem? h.getElem?, h.node, rfl⟩

private theorem Survives.not_lt (h : w.Survives writes n i) (h' : v.Survives writes n j)
    (hfield : v.field = w.field) : ¬ i < j := by
  intro hlt
  have hmem : v ∈ writes.drop (i + 1) := by
    apply List.mem_of_getElem? (i := j - (i + 1))
    rw [List.getElem?_drop, Nat.add_sub_cancel' hlt]
    exact h'.getElem?
  exact h.later v hmem h'.node hfield

/-- Of one field, one write of the node survives. -/
theorem Survives.index_eq (h : w.Survives writes n i) (h' : v.Survives writes n j)
    (hfield : v.field = w.field) : i = j :=
  Nat.le_antisymm (Nat.le_of_not_lt (h'.not_lt h hfield.symm))
    (Nat.le_of_not_lt (h.not_lt h' hfield))

/-- Of a field that is written in the node, a write survives. -/
theorem WrittenIn.exists_survives {field : F} (h : WrittenIn writes n field) :
    ∃ i, ∃ w : StaticWrite F, w.Survives writes n i ∧ w.field = field := by
  induction writes using List.reverseRecOn with
  | nil =>
    obtain ⟨w, hw, -⟩ := h
    cases hw
  | append_singleton done x ih =>
    by_cases hlast : x.node = n ∧ x.field = field
    · exact ⟨done.length, x, survives_concat.mpr (.inr ⟨rfl, rfl, hlast.1⟩), hlast.2⟩
    · obtain ⟨i, w, hw, rfl⟩ := ih ((writtenIn_concat.mp h).resolve_right hlast)
      refine ⟨i, w, survives_concat.mpr (.inl ⟨hw, ?_⟩), rfl⟩
      exact fun hnode hfield => hlast ⟨hnode, hfield⟩

end StaticWrite

/-! ## What a node kills and generates -/

namespace Facts

variable {ι ρ F : Type} [Instruction ι ρ] {f : Facts F} {resolve : ρ → Option F} {g : FlowGraph ι}
  {n : NodeId} {t : Transfer}

/-- The facts that a node with writes takes away are `kill`, and those that it adds are `gen`. -/
structure ClosedForm (f : Facts F) (resolve : ρ → Option F) (g : FlowGraph ι) (n : NodeId)
    (kill gen : BitSet) : Prop where
  fits_kill : kill.Fits f.size
  fits_gen : gen.Fits f.size
  /-- Taken away are the facts of all fields that the node writes, wherever those facts are. -/
  mem_kill : ∀ i, i ∈ kill ↔ ∃ w, f.write? i = some w ∧ WrittenIn f.writes.toList n w.field
  /-- Added are the facts of the node without a later one of the node and of their field. -/
  mem_gen : ∀ i, i ∈ gen ↔ ∃ w : StaticWrite F, w.Survives f.writes.toList n i
  /-- The same in program order: no instruction after that of the fact writes its field. -/
  mem_gen_iff : ∀ i w after, f.write? i = some w → w.node = n → g.StandsBefore resolve w after →
    (i ∈ gen ↔ ∀ x ∈ after, ¬ Instruction.Writes resolve w.field x)
  /-- What is added is taken away before, if it has entered. -/
  gen_subset : ∀ i ∈ gen, i ∈ kill

/-- A node leads from the facts `s` to the facts `s'` by putting its writes in the place of all
others of their fields. -/
structure Replaces (f : Facts F) (n : NodeId) (s s' : BitSet) : Prop where
  /-- Of a field that the node writes, there is the last write of the node and no other fact. -/
  written : ∀ field, WrittenIn f.writes.toList n field → ∃ last, ∃ w : StaticWrite F,
    w.Survives f.writes.toList n last ∧ w.field = field ∧
      ∀ i v, f.write? i = some v → v.field = field → (i ∈ s' ↔ i = last)
  /-- The facts of other fields are there if they were. -/
  others : ∀ i w, f.write? i = some w → ¬ WrittenIn f.writes.toList n w.field → (i ∈ s' ↔ i ∈ s)

omit [Instruction ι ρ] in
private theorem write?_of_survives {w : StaticWrite F} {i : Nat} (h : w.Survives f.writes.toList n i) :
    f.write? i = some w := by
  rw [write?, ← Array.getElem?_toList]
  exact h.getElem?

omit [Instruction ι ρ] in
private theorem Folds.kills_of_gens (h : f.Folds n f.writes.toList t) {i : Nat} (hi : t.Gens i) :
    t.Kills i := by
  obtain ⟨w, hw⟩ := (h.gens i).mp hi
  exact (h.kills i).mpr ⟨w, write?_of_survives hw, hw.writtenIn⟩

omit [Instruction ι ρ] in
private theorem Folds.replaces (h : f.Folds n f.writes.toList t) {s : BitSet} (hs : s.Over f.size) :
    f.Replaces n s (t.apply s) where
  written field hfield := by
    obtain ⟨last, w, hw, rfl⟩ := hfield.exists_survives
    refine ⟨last, w, hw, rfl, fun i v hv hsame => ?_⟩
    have hkilled : t.Kills i := (h.kills i).mpr ⟨v, hv, hsame ▸ hw.writtenIn⟩
    rw [h.overFacts.mem_apply hs, or_iff_right fun hkept => hkept.2 hkilled, h.gens]
    constructor
    · rintro ⟨v', hv'⟩
      obtain rfl := Option.some.inj (hv.symm.trans (write?_of_survives hv'))
      exact hv'.index_eq hw hsame.symm
    · rintro rfl
      exact ⟨w, hw⟩
  others i w hw hnot := by
    have hkept : ¬ t.Kills i := by
      intro hi
      obtain ⟨v, hv, hwritten⟩ := (h.kills i).mp hi
      obtain rfl := Option.some.inj (hw.symm.trans hv)
      exact hnot hwritten
    rw [h.overFacts.mem_apply hs, and_iff_left hkept,
      or_iff_left fun hi => hkept (h.kills_of_gens hi)]

variable [DecidableEq F]

/-- A transfer that all writes of a graph fold to has the closed form of the node. -/
theorem Lists.closedForm (hlists : f.Lists resolve g) {kill gen : BitSet}
    (h : f.Folds n f.writes.toList (.killGen kill gen)) : f.ClosedForm resolve g n kill gen := by
  cases h.fits with
  | killGen hkill hgen =>
    refine ⟨hkill, hgen, h.kills, h.gens, fun i w after hw hnode hstands => ?_,
      fun i => h.kills_of_gens⟩
    obtain ⟨earlier, later, hsplit, rfl, hafter⟩ := hlists.exists_split hw hstands
    have hgens : earlier.length ∈ gen ↔ w.Survives f.writes.toList n earlier.length := by
      refine (h.gens _).trans ⟨?_, fun hw => ⟨w, hw⟩⟩
      rintro ⟨v, hv⟩
      obtain rfl := Option.some.inj (hw.symm.trans (write?_of_survives hv))
      exact hv
    rw [hgens, hsplit, survives_split, and_iff_right hnode, ← hafter, hnode]

end Facts

/-! ## The transfers of numbered writes -/

section OfGraph

variable {ι ρ F : Type} [Instruction ι ρ] [Describe ρ] [DecidableEq F]

/-- The transfer of a node under the numbered writes of a graph. It is the identity if the node is
out of range or has no write. Otherwise it takes away and adds what the closed form says, so that of
each field that the node writes there remains just the last write, and the facts of other fields
stay as they are. It is the same for any number of nodes that the node is below. -/
theorem BlockTransfers.of_ofFacts_closed {resolve : ρ → Option F} {g : FlowGraph ι} {f : Facts F}
    (h : Facts.ofGraph resolve g = .ok f) (count : Nat) (n : NodeId) :
    ((count ≤ n ∨ ∀ w ∈ f.writes.toList, w.node ≠ n) → (ofFacts count f).of n = .identity) ∧
    ((n < count ∧ ∃ w ∈ f.writes.toList, w.node = n) → ∃ kill gen,
      (ofFacts count f).of n = .killGen kill gen ∧ f.ClosedForm resolve g n kill gen ∧
      ∀ s : BitSet, s.Over f.size →
        ((ofFacts count f).of n).apply s = (s.diff kill).union gen ∧
        f.Replaces n s (((ofFacts count f).of n).apply s)) ∧
    ∀ count', n < count → n < count' → (ofFacts count f).of n = (ofFacts count' f).of n := by
  have hlists := Facts.lists_of_ofGraph h
  have hfolds {count : Nat} (hn : n < count) := folds_ofFacts hlists.indexed hn
  refine ⟨fun hnone => ?_, fun hwrites => ?_, fun count' hn hn' => (hfolds hn).unique (hfolds hn')⟩
  · rcases Nat.lt_or_ge n count with hn | hn
    · have hidentity := (hfolds hn).isIdentity.mpr (hnone.resolve_left (Nat.not_le_of_lt hn))
      cases ht : (ofFacts count f).of n with
      | identity => rfl
      | killGen kill gen =>
        rw [ht] at hidentity
        cases hidentity
    · exact of_ofFacts_of_le hn
  · obtain ⟨hn, w, hw, hnode⟩ := hwrites
    have hnode' := hfolds hn
    cases ht : (ofFacts count f).of n with
    | identity =>
      rw [ht] at hnode'
      exact absurd hnode (hnode'.isIdentity.mp rfl w hw)
    | killGen kill gen =>
      rw [ht] at hnode'
      exact ⟨kill, gen, rfl, hlists.closedForm hnode', fun s hs => ⟨rfl, hnode'.replaces hs⟩⟩

end OfGraph

/-- A node that writes `x`, `y` and `x` again, one that writes `x`, and one without writes. -/
def FlowGraph.rewritingBlocks : FlowGraph Instr :=
  ⟨#[⟨[⟨⟨1⟩, .putStatic ⟨"A", "x"⟩⟩, ⟨⟨2⟩, .putStatic ⟨"A", "y"⟩⟩,
      ⟨⟨3⟩, .putStatic ⟨"B", "x"⟩⟩], [1]⟩,
    ⟨[⟨⟨4⟩, .putStatic ⟨"A", "x"⟩⟩], [0, 2]⟩, ⟨[⟨⟨5⟩, .other⟩], []⟩]⟩

/-- The first node kills the facts of both fields and generates the last write of each. It is the same
for any number of nodes, and nodes without writes or beyond the number have the identity. -/
theorem BlockTransfers.rewritingBlocks_closed : ∃ f : Facts String,
    Facts.ofGraph (fun r : FieldRef => some r.name) .rewritingBlocks = .ok f ∧
      (ofFacts 1 f).of 0 = .killGen ⟨4, #[15]⟩ ⟨4, #[6]⟩ ∧
      f.ClosedForm (fun r : FieldRef => some r.name) .rewritingBlocks 0 ⟨4, #[15]⟩ ⟨4, #[6]⟩ ∧
      f.Replaces 0 ⟨4, #[9]⟩ ⟨4, #[6]⟩ ∧ (ofFacts 1 f).of 0 = (ofFacts 5 f).of 0 ∧
        (ofFacts 1 f).of 1 = .identity ∧ (ofFacts 5 f).of 2 = .identity := by
  have hrun : (Facts.ofGraph (fun r : FieldRef => some r.name) .rewritingBlocks).toOption.map
      (fun f => (f.writes, (ofFacts 1 f).of 0)) =
        some (#[⟨0, ⟨1⟩, "x"⟩, ⟨0, ⟨2⟩, "y"⟩, ⟨0, ⟨3⟩, "x"⟩, ⟨1, ⟨4⟩, "x"⟩],
          .killGen ⟨4, #[15]⟩ ⟨4, #[6]⟩) := by
    decide +kernel
  obtain ⟨f, hf, hvalues⟩ := Option.map_eq_some_iff.mp hrun
  obtain ⟨hwrites, hof⟩ := Prod.mk.inj hvalues
  have hf := toOption_eq_some.mp hf
  have hentering : BitSet.Over f.size ⟨4, #[9]⟩ := by
    rw [Facts.size, hwrites]
    exact ⟨rfl, rfl⟩
  obtain ⟨-, hfirst, hsame⟩ := of_ofFacts_closed hf 1 0
  obtain ⟨kill, gen, hkillGen, hclosed, hacts⟩ :=
    hfirst ⟨by decide, ⟨0, ⟨1⟩, "x"⟩, by simp [hwrites], rfl⟩
  obtain ⟨rfl, rfl⟩ := Transfer.killGen.inj (hof.symm.trans hkillGen)
  have hreplaces := (hacts _ hentering).2
  rw [hof] at hreplaces
  exact ⟨f, hf, hof, hclosed, hreplaces, hsame 5 (by decide) (by decide),
    (of_ofFacts_closed hf 1 1).1 (.inl (by decide)),
    (of_ofFacts_closed hf 5 2).1 (.inr (by simp [hwrites]))⟩

end ReachingWrites
