import RoadHierarchy.Proofs.Contraction.Foundation

/-! # Unpacked shortcuts can be driven

Every edge of a hierarchy unpacks to input edges that lead from its source to its target. The halves
of a shortcut are never removed, so only live edges are met below it, at whatever depth.
-/

namespace RoadHierarchy

namespace Graph

variable {g : Graph} {e first second : Edge} {parts : List Edge} {u w via number : Nat}

/-- The halves of a shortcut are known by their ids, so both are live wherever one finds them. -/
theorem Spans.halves_live (spans : g.Spans via e) (valid : g.WellFormed) (left : first ∈ g.edges)
    (right : second ∈ g.edges) {meet : Nat} (composes : e.Composes first second meet) :
    first.removed = false ∧ second.removed = false := by
  obtain ⟨into, out, same, ⟨before, alive, -⟩, ⟨after, live, -⟩⟩ := spans
  have ids := composes.pair.symm.trans same.pair
  simp only [Option.some.injEq, Prod.mk.injEq] at ids
  have entry := valid.find_edge left
  have exit := valid.find_edge right
  rw [ids.1, valid.find_edge before] at entry
  rw [ids.2, valid.find_edge after] at exit
  cases entry
  cases exit
  exact ⟨alive, live⟩

/-- A shortcut expands to live edges, and so does a live edge. -/
theorem Expands.live (expands : g.Expands e u parts w) (valid : g.WellFormed)
    (rests : g.Rests number) (stays : e.isShortcut = true ∨ e.removed = false) :
    ∀ part ∈ parts, part.removed = false := by
  have halves : ∀ {e first second : Edge} {via : Nat}, e ∈ g.edges → e.Composes first second via →
      first ∈ g.edges → second ∈ g.edges → first.removed = false ∧ second.removed = false := by
    intro e first second via member composes left right
    obtain ⟨_, _, spans, -⟩ := rests e member composes.isShortcut
    exact spans.halves_live valid left right composes
  induction expands with
  | input step =>
    have alive := stays.resolve_left (by rw [step.2.1]; exact Bool.false_ne_true)
    exact List.forall_mem_singleton.mpr alive
  | forth member composes left right before after =>
    obtain ⟨into, out⟩ := halves member composes left.mem_edges right.mem_edges
    exact List.forall_mem_append.mpr ⟨before (.inr into), after (.inr out)⟩
  | back member composes _ right left after before =>
    obtain ⟨into, out⟩ := halves member composes left.mem_edges right.mem_edges
    exact List.forall_mem_append.mpr ⟨after (.inr out), before (.inr into)⟩

end Graph

namespace Hierarchy

variable {s : Settings} {g : Graph} {h : Hierarchy} {extract : Extract}

/-- Every edge of a hierarchy, live or removed, unpacks to input edges that can be driven one after
the other from its source to its target. Below a shortcut all of them are live. They are as long as
the edge is and as many as it counts, and if the edge can be driven both ways, so can they. -/
theorem unpack_drivable (extracted : Graph.ofExtract extract = .ok g) (built : BuiltFrom s g h)
    {e : Edge} (member : e ∈ h.graph.edges) :
    ∃ parts, h.graph.unpack e.id = .ok (parts.map (·.id)) ∧ parts ≠ [] ∧
      h.graph.inputs.Route e.source parts e.target ∧
      (e.isShortcut = true → ∀ part ∈ parts, part.removed = false) ∧
      Edge.totalWeight parts = e.weight ∧ e.count = min parts.length 0xffffffff ∧
      (e.bidirectional = true → h.graph.inputs.Route e.target parts.reverse e.source) := by
  have before := (Graph.reachable_ofExtract extracted).wellFormed
  have plain := Graph.plain_ofExtract extracted
  obtain ⟨rounds, run, -⟩ := built.run before
  have valid := run.wellFormed before
  have founded := (Graph.Founded.of_plain plain).run before run
  have rests := (Graph.Rests.of_plain plain).run before run
  have single := fun e there input => founded.count_eq_one plain (e := e) there input
  obtain ⟨parts, expands⟩ := founded.expands valid member (.inl ⟨rfl, rfl⟩)
  refine ⟨parts, ?_, expands.ne_nil, expands.route, fun short => expands.live valid rests (.inl short),
    expands.totalWeight, expands.count single, fun both => (expands.reverse both).route⟩
  rw [Graph.unpack_eq_ok valid member, expands.drive valid]

/-- A row of two-way roads, not all stored in the same direction. The longer shortcut is driven
against the direction of the shorter one that it stands for. -/
theorem unpack_drivable_row : ∃ g h parts, Graph.ofExtract
      ⟨List.replicate 4 ⟨0, 0⟩, [⟨1, 0, 1, true⟩, ⟨1, 2, 2, true⟩, ⟨3, 2, 4, true⟩]⟩ = .ok g ∧
    BuiltFrom {} g h ∧
    h.graph.edges[3]? = some ⟨3, 0, 2, 3, 2, true, some (0, 1), false⟩ ∧
    h.graph.edges[4]? = some ⟨4, 3, 0, 7, 3, true, some (2, 3), false⟩ ∧
    parts.map (·.id) = [2, 1, 0] ∧ h.graph.inputs.Route 3 parts 0 ∧
    (∀ part ∈ parts, part.removed = false) ∧ Edge.totalWeight parts = 7 ∧
    h.graph.inputs.Route 0 parts.reverse 3 := by
  have computed : (do
      let g ← Graph.ofExtract
        ⟨List.replicate 4 ⟨0, 0⟩, [⟨1, 0, 1, true⟩, ⟨1, 2, 2, true⟩, ⟨3, 2, 4, true⟩]⟩
      let h ← buildInOrder {} [1, 2, 0, 3] g
      let unpacked ← h.graph.unpack 4
      return (h.graph.edges[3]?, h.graph.edges[4]?, unpacked)).toOption =
      some (some ⟨3, 0, 2, 3, 2, true, some (0, 1), false⟩,
        some ⟨4, 3, 0, 7, 3, true, some (2, 3), false⟩, [2, 1, 0]) := by
    decide +kernel
  obtain ⟨g, extracted, computed⟩ := bind_eq_ok.mp (toOption_eq_some.mp computed)
  obtain ⟨h, ordered, computed⟩ := bind_eq_ok.mp computed
  obtain ⟨unpacked, listed, computed⟩ := bind_eq_ok.mp computed
  have built : BuiltFrom {} g h := .inr ⟨[1, 2, 0, 3], ordered⟩
  obtain ⟨inner, outer, rfl⟩ := (by simpa using pure_eq_ok.mp computed :
    h.graph.edges[3]? = _ ∧ h.graph.edges[4]? = _ ∧ unpacked = _)
  obtain ⟨parts, unpacks, -, leads, live, length, -, back⟩ :=
    unpack_drivable extracted built (Graph.mem_edges_iff.mpr ⟨4, outer⟩)
  have ids := Except.ok.inj (unpacks.symm.trans listed)
  exact ⟨g, h, parts, extracted, built, inner, outer, ids, leads, live rfl, length, back rfl⟩

end Hierarchy

end RoadHierarchy
