import ReachingWrites.Proofs.Facts.Places

/-!
# The scan order of the writes

An instruction has a place: its node, and how many instructions stand before it there. Of two places the
earlier one is that of the smaller node, and in one node that with fewer instructions before it.
`FlowGraph.WriteAt` says that a static write stands at a place, and `FlowGraph.Taken` and
`FlowGraph.SoundBefore` say what has come before it, all without a word of how a graph is scanned.

The numbering scans the row of the write sites, and the sites before one of them are the writes at
earlier places. So it succeeds exactly when the write at every place is sound, and otherwise it reports
the first one that is not: `numberable_writeSites_iff` and `Facts.ofGraph_eq_error_iff`.
-/

set_option autoImplicit false

namespace ReachingWrites

variable {ι ρ F : Type}

/-- A node, and a number of instructions that stand before one of it. -/
abbrev Place := Nat × Nat

namespace Place

/-- Smaller nodes come first, and in one node what has fewer instructions before it. -/
def Earlier (a b : Place) : Prop := a.1 < b.1 ∨ a.1 = b.1 ∧ a.2 < b.2

/-- No place is earlier than itself. -/
theorem Earlier.irrefl (a : Place) : ¬a.Earlier a := by
  unfold Earlier
  omega

/-- The order of places is transitive. -/
theorem Earlier.trans {a b c : Place} (h : a.Earlier b) (h' : b.Earlier c) : a.Earlier c := by
  unfold Earlier at *
  omega

/-- Of two places that are not the same, one is earlier. -/
theorem earlier_or_eq (a b : Place) : a.Earlier b ∨ a = b ∨ b.Earlier a := by
  unfold Earlier
  rw [Prod.ext_iff]
  omega

end Place

variable [Instruction ι ρ]

namespace FlowGraph

/-- A static write with a position and a reference stands at a place. -/
def WriteAt (g : FlowGraph ι) (place : Place) (position : Position) (reference : ρ) : Prop :=
  ∃ x, (g.instructions place.1)[place.2]? = some x ∧ Instruction.position x = position ∧
    Instruction.staticWrite? x = some reference

/-- A static write at an earlier place has the position. -/
def Taken (g : FlowGraph ι) (place : Place) (position : Position) : Prop :=
  ∃ earlier reference, earlier.Earlier place ∧ g.WriteAt earlier position reference

/-- The static write at a place, if there is one, has a position that no earlier one has, and it
resolves. -/
def SoundAt (g : FlowGraph ι) (resolve : ρ → Option F) (place : Place) : Prop :=
  ∀ position reference, g.WriteAt place position reference →
    ¬g.Taken place position ∧ (resolve reference).isSome

/-- Of the static writes at earlier places each is sound. -/
def SoundBefore (g : FlowGraph ι) (resolve : ρ → Option F) (place : Place) : Prop :=
  ∀ earlier : Place, earlier.Earlier place → g.SoundAt resolve earlier

/-- There is one write at a place at most, and so one site. -/
private theorem WriteAt.site_unique {g : FlowGraph ι} {place : Place} {site other : WriteSite ρ}
    (h : g.WriteAt place site.position site.reference)
    (h' : g.WriteAt place other.position other.reference) (hnode : site.node = other.node) :
    site = other := by
  obtain ⟨x, hx, hposition, hreference⟩ := h
  obtain ⟨x', hx', hposition', hreference'⟩ := h'
  obtain rfl := Option.some.inj (hx.symm.trans hx')
  cases site
  cases other
  rw [WriteSite.mk.injEq]
  exact ⟨hnode, hposition.symm.trans hposition',
    Option.some.inj (hreference.symm.trans hreference')⟩

/-- All writes are sound exactly when no two stand at one position and each resolves. -/
theorem forall_soundAt_iff {g : FlowGraph ι} {resolve : ρ → Option F} :
    (∀ place, g.SoundAt resolve place) ↔
      (∀ place place' position reference reference', g.WriteAt place position reference →
        g.WriteAt place' position reference' → place = place') ∧
      ∀ place position reference, g.WriteAt place position reference →
        (resolve reference).isSome := by
  constructor
  · intro h
    refine ⟨?_, fun place position reference hwrite => (h place position reference hwrite).2⟩
    intro place place' position reference reference' hwrite hwrite'
    rcases place.earlier_or_eq place' with hlt | heq | hlt
    · exact absurd ⟨place, reference, hlt, hwrite⟩ (h place' position reference' hwrite').1
    · exact heq
    · exact absurd ⟨place', reference', hlt, hwrite'⟩ (h place position reference hwrite).1
  · rintro ⟨hdistinct, hresolves⟩ place position reference hwrite
    refine ⟨?_, hresolves place position reference hwrite⟩
    rintro ⟨earlier, reference', hlt, hwrite'⟩
    obtain rfl := hdistinct earlier place position reference' reference hwrite' hwrite
    exact Place.Earlier.irrefl _ hlt

/-- A write stands at its site in the row. -/
theorem WriteAt.mem_writeSites {g : FlowGraph ι} {place : Place} {position : Position}
    {reference : ρ} (h : g.WriteAt place position reference) :
    (⟨place.1, position, reference⟩ : WriteSite ρ) ∈ g.writeSites := by
  obtain ⟨x, hx, rfl, hreference⟩ := h
  exact mem_writeSites_of_staticWrite? (List.mem_of_getElem? hx) hreference

/-! ## The sites by place -/

/-- The sites of a node, each with its place. -/
private def placedIn (n : NodeId) (xs : List ι) : List (Place × WriteSite ρ) :=
  xs.zipIdx.filterMap fun x => (WriteSite.of? n x.1).map fun site => ((n, x.2), site)

/-- The sites of a graph, each with its place. -/
private def placedSites (g : FlowGraph ι) : List (Place × WriteSite ρ) :=
  g.nodes.flatMap fun n => placedIn n (g.instructions n)

private theorem map_snd_placedSites (g : FlowGraph ι) :
    g.placedSites.map Prod.snd = g.writeSites := by
  rw [placedSites, writeSites, List.map_flatMap]
  refine List.flatMap_congr fun n _ => ?_
  calc (placedIn n (g.instructions n)).map Prod.snd
      = ((g.instructions n).zipIdx).filterMap fun x => WriteSite.of? n x.1 := by
        simp only [placedIn, List.map_filterMap, Option.map_map, Function.comp_def,
          Option.map_id']
    _ = (((g.instructions n).zipIdx).map Prod.fst).filterMap (WriteSite.of? n) := by
        rw [List.filterMap_map]
        rfl
    _ = (g.instructions n).filterMap (WriteSite.of? n) := by rw [List.zipIdx_map_fst]

private theorem mem_placedSites {g : FlowGraph ι} {place : Place} {site : WriteSite ρ} :
    (place, site) ∈ g.placedSites ↔
      site.node = place.1 ∧ g.WriteAt place site.position site.reference := by
  obtain ⟨n, k⟩ := place
  obtain ⟨node, position, reference⟩ := site
  simp only [placedSites, placedIn, List.mem_flatMap, List.mem_filterMap, Prod.exists,
    List.mk_mem_zipIdx_iff_getElem?, WriteSite.of?, Option.map_map, Option.map_eq_some_iff,
    WriteAt, nodes, List.mem_range, Function.comp_apply, Prod.mk.injEq, WriteSite.mk.injEq]
  constructor
  · rintro ⟨_, -, x, _, hx, _, hreference, ⟨rfl, rfl⟩, rfl, rfl, rfl⟩
    exact ⟨rfl, x, hx, rfl, hreference⟩
  · rintro ⟨rfl, x, hx, rfl, hreference⟩
    exact ⟨_, lt_nodeCount_of_mem_instructions (List.mem_of_getElem? hx), x, k, hx, reference,
      hreference, ⟨rfl, rfl⟩, rfl, rfl, rfl⟩

/-- Sites stand in the row as their places do in the graph. -/
private theorem pairwise_placedSites (g : FlowGraph ι) :
    (g.placedSites : List (Place × WriteSite ρ)).Pairwise fun a b => a.1.Earlier b.1 := by
  rw [placedSites, List.pairwise_flatMap]
  constructor
  · intro n _
    rw [placedIn, List.pairwise_filterMap]
    have hplaces : ((g.instructions n).zipIdx).Pairwise fun x y => x.2 < y.2 := by
      rw [← List.pairwise_map (f := Prod.snd) (R := (· < ·)), List.zipIdx_map_snd]
      exact List.pairwise_lt_range'
    refine hplaces.imp fun hlt a ha b hb => ?_
    obtain ⟨_, -, rfl⟩ := Option.map_eq_some_iff.mp ha
    obtain ⟨_, -, rfl⟩ := Option.map_eq_some_iff.mp hb
    exact .inr ⟨rfl, hlt⟩
  · refine List.pairwise_lt_range.imp fun hlt a ha b hb => .inl ?_
    obtain ⟨_, -, ha⟩ := List.mem_filterMap.mp ha
    obtain ⟨_, -, hb⟩ := List.mem_filterMap.mp hb
    obtain ⟨_, -, rfl⟩ := Option.map_eq_some_iff.mp ha
    obtain ⟨_, -, rfl⟩ := Option.map_eq_some_iff.mp hb
    exact hlt

/-- In a row in which each comes before the later ones in an order, those before an element are those
that are smaller. -/
private theorem mem_before_iff {β : Type} {r : β → β → Prop} (irrefl : ∀ a, ¬r a a)
    (trans : ∀ {a b c}, r a b → r b c → r a c) {before after : List β} {b : β}
    (h : (before ++ b :: after).Pairwise r) {a : β} :
    a ∈ before ↔ a ∈ before ++ b :: after ∧ r a b := by
  obtain ⟨-, hafter, hacross⟩ := List.pairwise_append.mp h
  constructor
  · intro ha
    exact ⟨List.mem_append_left _ ha, hacross a ha b List.mem_cons_self⟩
  · rintro ⟨ha, hab⟩
    rcases List.mem_append.mp ha with ha | ha
    · exact ha
    · rcases List.mem_cons.mp ha with rfl | ha
      · exact absurd hab (irrefl a)
      · exact absurd (trans hab (List.rel_of_pairwise_cons hafter ha)) (irrefl a)

/-! ## Sites up to a place -/

/-- A row holds, in order, the sites at certain places, and with a place all earlier ones are meant. -/
private structure Spans (g : FlowGraph ι) (within : Place → Prop)
    (placed : List (Place × WriteSite ρ)) : Prop where
  earlier : ∀ {place earlier : Place}, within place → earlier.Earlier place → within earlier
  ordered : placed.Pairwise fun a b => a.1.Earlier b.1
  mem_iff : ∀ place site, (place, site) ∈ placed ↔
    within place ∧ site.node = place.1 ∧ g.WriteAt place site.position site.reference

private theorem spans_placedSites (g : FlowGraph ι) :
    g.Spans (fun _ => True) (g.placedSites : List (Place × WriteSite ρ)) where
  earlier _ _ := trivial
  ordered := g.pairwise_placedSites
  mem_iff place site := by rw [mem_placedSites, true_and]

private theorem spans_before {g : FlowGraph ι} {before after : List (Place × WriteSite ρ)}
    {place : Place} {site : WriteSite ρ} (h : g.placedSites = before ++ (place, site) :: after) :
    g.Spans (fun earlier => earlier.Earlier place) before where
  earlier h h' := h'.trans h
  ordered := (List.pairwise_append.mp (h ▸ g.pairwise_placedSites)).1
  mem_iff earlier other := by
    rw [mem_before_iff (r := fun a b => a.1.Earlier b.1) (fun a => Place.Earlier.irrefl a.1)
      Place.Earlier.trans (h ▸ g.pairwise_placedSites), ← h, mem_placedSites, and_comm]

section Spans

variable {g : FlowGraph ι} {within : Place → Prop} {placed : List (Place × WriteSite ρ)}
  (h : g.Spans within placed)
include h

/-- The write at one of the places has its site in the row. -/
private theorem Spans.mem_of_writeAt {place : Place} {position : Position} {reference : ρ}
    (hwithin : within place) (hwrite : g.WriteAt place position reference) :
    (place, ⟨place.1, position, reference⟩) ∈ placed :=
  (h.mem_iff place _).mpr ⟨hwithin, rfl, hwrite⟩

/-- The positions in a row are those of the writes at its places. -/
private theorem Spans.mem_positions {position : Position} :
    position ∈ (placed.map Prod.snd).map WriteSite.position ↔
      ∃ place reference, within place ∧ g.WriteAt place position reference := by
  rw [List.map_map, List.mem_map]
  constructor
  · rintro ⟨⟨place, site⟩, hmem, rfl⟩
    obtain ⟨hwithin, -, hwrite⟩ := (h.mem_iff place site).mp hmem
    exact ⟨place, site.reference, hwithin, hwrite⟩
  · rintro ⟨place, reference, hwithin, hwrite⟩
    exact ⟨_, h.mem_of_writeAt hwithin hwrite, rfl⟩

/-- The positions in a row are distinct exactly when none of its places has a position that is taken. -/
private theorem Spans.nodup_iff :
    ((placed.map Prod.snd).map WriteSite.position).Nodup ↔
      ∀ place position reference, within place → g.WriteAt place position reference →
        ¬g.Taken place position := by
  have hnodup : placed.Nodup := by
    refine h.ordered.imp ?_
    rintro a _ hlt rfl
    exact Place.Earlier.irrefl a.1 hlt
  rw [List.map_map, List.nodup_map_iff_inj_on hnodup]
  constructor
  · rintro hinj place position reference hwithin hwrite ⟨earlier, reference', hlt, hwrite'⟩
    have heq := hinj _ (h.mem_of_writeAt (h.earlier hwithin hlt) hwrite') _
      (h.mem_of_writeAt hwithin hwrite) rfl
    obtain rfl : earlier = place := congrArg Prod.fst heq
    exact Place.Earlier.irrefl _ hlt
  · rintro hfree ⟨a, site⟩ ha ⟨b, other⟩ hb heq
    obtain ⟨hwithin, hnode, hwrite⟩ := (h.mem_iff a site).mp ha
    obtain ⟨hwithin', hnode', hwrite'⟩ := (h.mem_iff b other).mp hb
    have heq : site.position = other.position := heq
    rcases a.earlier_or_eq b with hlt | rfl | hlt
    · exact absurd ⟨a, site.reference, hlt, heq ▸ hwrite⟩ (hfree b _ _ hwithin' hwrite')
    · rw [hwrite.site_unique hwrite' (hnode.trans hnode'.symm)]
    · exact absurd ⟨b, other.reference, hlt, heq ▸ hwrite'⟩ (hfree a _ _ hwithin hwrite)

/-- The sites in a row can be numbered exactly when the write at each of its places is sound. -/
private theorem Spans.numberable_iff {resolve : ρ → Option F} :
    Numberable resolve (placed.map Prod.snd) ↔ ∀ place, within place → g.SoundAt resolve place := by
  constructor
  · intro hnumberable place hwithin position reference hwrite
    have hmem := h.mem_of_writeAt hwithin hwrite
    exact ⟨h.nodup_iff.mp hnumberable.distinct place position reference hwithin hwrite,
      hnumberable.resolves _ (List.mem_map_of_mem hmem)⟩
  · intro hsound
    constructor
    · rw [h.nodup_iff]
      intro place position reference hwithin hwrite
      exact (hsound place hwithin position reference hwrite).1
    · intro site hsite
      obtain ⟨⟨place, _⟩, hmem, rfl⟩ := List.mem_map.mp hsite
      obtain ⟨hwithin, -, hwrite⟩ := (h.mem_iff place _).mp hmem
      exact (hsound place hwithin _ _ hwrite).2

end Spans

end FlowGraph

/-! ## The first write that is not sound -/

/-- The writes of a graph can be numbered exactly when the write at every place is sound. -/
theorem numberable_writeSites_iff {g : FlowGraph ι} {resolve : ρ → Option F} :
    Numberable resolve g.writeSites ↔ ∀ place, g.SoundAt resolve place := by
  rw [← g.map_snd_placedSites, g.spans_placedSites.numberable_iff]
  simp only [forall_const]

namespace FlowGraph

/-- The sites of a row are those of the writes before a place: what is asked of them can be asked of
the places. -/
private structure Precede (g : FlowGraph ι) (earlier : List (WriteSite ρ)) (place : Place) : Prop where
  numberable_iff {F : Type} (resolve : ρ → Option F) :
    Numberable resolve earlier ↔ g.SoundBefore resolve place
  mem_positions_iff (position : Position) :
    position ∈ earlier.map WriteSite.position ↔ g.Taken place position

private theorem precede_of_placedSites {g : FlowGraph ι} {before after : List (Place × WriteSite ρ)}
    {place : Place} {site : WriteSite ρ} (h : g.placedSites = before ++ (place, site) :: after) :
    g.Precede (before.map Prod.snd) place where
  numberable_iff _ := (spans_before h).numberable_iff
  mem_positions_iff _ := (spans_before h).mem_positions

/-- A site of the row has a place, and the sites before it are those of the writes before that place. -/
private theorem exists_place_of_split {g : FlowGraph ι} {earlier later : List (WriteSite ρ)}
    {site : WriteSite ρ} (h : g.writeSites = earlier ++ site :: later) :
    ∃ place : Place, site.node = place.1 ∧ g.WriteAt place site.position site.reference ∧
      g.Precede earlier place := by
  rw [← g.map_snd_placedSites] at h
  obtain ⟨before, _, hplaced, rfl, hrest⟩ := List.map_eq_append_iff.mp h
  obtain ⟨⟨place, _⟩, after, rfl, rfl, rfl⟩ := List.map_eq_cons_iff.mp hrest
  have hmem := hplaced ▸ List.mem_append_right before List.mem_cons_self
  obtain ⟨hnode, hwrite⟩ := mem_placedSites.mp hmem
  exact ⟨place, hnode, hwrite, precede_of_placedSites hplaced⟩

/-- A write has a site in the row, and the sites before it are those of the writes before its place. -/
private theorem WriteAt.exists_split {g : FlowGraph ι} {place : Place} {position : Position}
    {reference : ρ} (h : g.WriteAt place position reference) :
    ∃ earlier later, g.writeSites = earlier ++ ⟨place.1, position, reference⟩ :: later ∧
      g.Precede earlier place := by
  have hmem : (place, ⟨place.1, position, reference⟩) ∈ g.placedSites := mem_placedSites.mpr ⟨rfl, h⟩
  obtain ⟨before, after, hplaced⟩ := List.append_of_mem hmem
  refine ⟨before.map Prod.snd, after.map Prod.snd, ?_, precede_of_placedSites hplaced⟩
  rw [← g.map_snd_placedSites, hplaced, List.map_append, List.map_cons]

end FlowGraph

/-- The failure is that of the first write, by place, that is not sound. That its position is taken is
reported even if it does not resolve either. -/
theorem Facts.ofGraph_eq_error_iff [Describe ρ] [DecidableEq F] {resolve : ρ → Option F}
    {g : FlowGraph ι} {failure : AnalysisFailure} :
    Facts.ofGraph resolve g = .error failure ↔ ∃ place position reference,
      g.WriteAt place position reference ∧ g.SoundBefore resolve place ∧
        ((g.Taken place position ∧ failure = .duplicatePosition place.1 position) ∨
          (¬g.Taken place position ∧ resolve reference = none ∧
            failure = .unresolvedField place.1 position (describe reference))) := by
  rw [Facts.ofGraph_eq_error]
  constructor
  · rintro ⟨earlier, ⟨_, position, reference⟩, later, hsplit, hnumberable, hfailure⟩
    obtain ⟨place, rfl, hwrite, hprecede⟩ := FlowGraph.exists_place_of_split hsplit
    rw [hprecede.mem_positions_iff] at hfailure
    exact ⟨place, position, reference, hwrite, (hprecede.numberable_iff resolve).mp hnumberable,
      hfailure⟩
  · rintro ⟨place, position, reference, hwrite, hsound, hfailure⟩
    obtain ⟨earlier, later, hsplit, hprecede⟩ := hwrite.exists_split
    rw [← hprecede.mem_positions_iff] at hfailure
    exact ⟨earlier, _, later, hsplit, (hprecede.numberable_iff resolve).mpr hsound, hfailure⟩

end ReachingWrites
