import RoadHierarchy.Proofs.Contraction.Run
import RoadHierarchy.Proofs.Graph.Unpacking

/-! # Shortcuts of a run

A run starts from input edges, and each of its steps adds at most one shortcut, over two edges that
are there. So every edge of a hierarchy is an input edge or stands for two others.
-/

namespace RoadHierarchy.Graph

variable {g m n : Graph} {number : Nat} {members : List Nat} {rounds : List (List Nat)}

namespace Founded

theorem of_plain (plain : g.Plain) : g.Founded g where
  rooted e member _ := ⟨e, member, .refl e⟩
  composed e member pair found := by
    rw [(plain.edges e member).2.1] at found
    cases found

theorem of_edges_eq (founded : g.Founded m) (edges : n.edges = m.edges) : g.Founded n := by
  constructor
  · rw [edges]
    exact founded.rooted
  · rw [edges]
    exact founded.composed

/-- The edges that were there stand for what they stood for. -/
theorem of_ages (founded : g.Founded m) (grows : m.Grows n) {old e : Edge} (member : old ∈ m.edges)
    (aged : old.Ages e) : (e.pair = none → ∃ first ∈ g.edges, first.Ages e) ∧
      ∀ pair, e.pair = some pair →
        ∃ first ∈ n.edges, ∃ second ∈ n.edges, ∃ via, e.Composes first second via := by
  have same : e.pair = old.pair := by rw [aged.1]
  rw [same]
  constructor
  · intro input
    obtain ⟨first, there, young⟩ := founded.rooted old member input
    exact ⟨first, there, young.trans aged⟩
  · intro pair found
    obtain ⟨first, left, second, right, via, composes⟩ := founded.composed old member pair found
    obtain ⟨first', left', older⟩ := grows.mem_edges left
    obtain ⟨second', right', elder⟩ := grows.mem_edges right
    exact ⟨first', left', second', right', via, composes.ages aged older elder⟩

/-- A new shortcut stands for the two edges that it was put over. -/
theorem composes_over {v u w id : Nat} {edgeIn edgeOut : Edge} {bothWays : Bool}
    (crossing : m.Crossing v edgeIn edgeOut u w)
    (back : bothWays = true → m.Crossing v edgeOut edgeIn w u) :
    (Edge.over id v edgeIn edgeOut bothWays).Composes edgeIn edgeOut v := by
  have source : (Edge.over id v edgeIn edgeOut bothWays).source = u := crossing.source_eq id
  have target : (Edge.over id v edgeIn edgeOut bothWays).target = w := crossing.target_eq id
  constructor
  case pair | weight | count => rfl
  case into => exact source ▸ crossing.into.2.2
  case out => exact target ▸ crossing.out.2.2
  case apart =>
    rw [source, target]
    exact crossing.apart
  case source_apart => exact source ▸ crossing.start_apart
  case target_apart => exact target ▸ crossing.goal_apart
  case both =>
    intro both
    have reversed := back both
    exact ⟨crossing.into.2.2.bidirectional reversed.out.2.2 crossing.start_apart,
      crossing.out.2.2.bidirectional reversed.into.2.2 crossing.goal_apart.symm⟩

theorem bridge (founded : g.Founded m) (valid : m.WellFormed) {v u w : Nat} {edgeIn edgeOut : Edge}
    {bothWays : Bool} (crossing : m.Crossing v edgeIn edgeOut u w)
    (back : bothWays = true → m.Crossing v edgeOut edgeIn w u) :
    g.Founded (m.bridge v edgeIn edgeOut bothWays) := by
  have grows : m.Grows (m.bridge v edgeIn edgeOut bothWays) := .bridge
  have each : ∀ e ∈ (m.bridge v edgeIn edgeOut bothWays).edges,
      e = .over m.edgeCount v edgeIn edgeOut bothWays ∨ ∃ old ∈ m.edges, old.Ages e := by
    intro e member
    obtain ⟨i, found⟩ := mem_edges_iff.mp member
    rcases crossing.edge_cases valid found with new | before | ⟨old, -, before, rfl⟩
    · exact .inl new
    · exact .inr ⟨e, mem_edges_iff.mpr ⟨i, before⟩, .refl e⟩
    · exact .inr ⟨old, mem_edges_iff.mpr ⟨i, before⟩, rfl, fun _ => rfl⟩
  constructor
  · intro e member input
    rcases each e member with rfl | ⟨old, before, aged⟩
    · cases input
    · exact (founded.of_ages grows before aged).1 input
  · intro e member pair found
    rcases each e member with rfl | ⟨old, before, aged⟩
    · obtain ⟨first, left, older⟩ := grows.mem_edges crossing.into.1
      obtain ⟨second, right, elder⟩ := grows.mem_edges crossing.out.1
      exact ⟨first, left, second, right, v, (composes_over crossing back).ages (.refl _) older elder⟩
    · exact (founded.of_ages grows before aged).2 pair found

theorem step (founded : g.Founded m) (valid : m.WellFormed) (step : Step number members m n) :
    g.Founded n := by
  rcases step.edges_cases with same | ⟨v, edgeIn, edgeOut, bothWays, u, w, bridging, rfl⟩
  · exact founded.of_edges_eq same
  · exact founded.bridge valid bridging.toCrossing bridging.back

theorem run (founded : g.Founded m) (valid : m.WellFormed) (run : Run number m rounds n) :
    g.Founded n :=
  run.keeps valid (fun before step kept => kept.step before step) founded

end Founded

end RoadHierarchy.Graph
