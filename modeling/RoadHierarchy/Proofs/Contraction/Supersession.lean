import RoadHierarchy.Proofs.Contraction.Stages

/-! # What is removed is replaced

An edge is removed when a shortcut between the same vertices makes it obsolete, and that shortcut
may become obsolete in turn. Replacement is transitive, so at every stage each removed edge still has
a live replacement. Nothing is removed but between vertices that stay unprocessed.
-/

namespace RoadHierarchy

/-- The shortcut joins the same vertices as the edge, is lighter, and can be driven wherever the
edge can. -/
structure Edge.Replaces (new old : Edge) : Prop where
  shortcut : new.isShortcut = true
  ends : new.source = old.source ∧ new.target = old.target ∨
    new.source = old.target ∧ new.target = old.source
  lighter : new.weight < old.weight
  drives : ∀ u w, old.Drives u w → new.Drives u w

namespace Edge

variable {new old older : Edge}

theorem Replaces.of_drives (shortcut : new.isShortcut = true) (lighter : new.weight < old.weight)
    (drives : ∀ u w, old.Drives u w → new.Drives u w) : new.Replaces old := by
  refine ⟨shortcut, ?_, lighter, drives⟩
  have forth := drives old.source old.target (.inl ⟨rfl, rfl⟩)
  exact forth.imp_right fun back => ⟨back.2.2, back.2.1⟩

theorem Replaces.trans (later : new.Replaces old) (earlier : old.Replaces older) :
    new.Replaces older :=
  .of_drives later.shortcut (later.lighter.trans earlier.lighter) fun u w drives =>
    later.drives u w (earlier.drives u w drives)

end Edge

namespace Graph

/-- Every removed edge has a live replacement. -/
def Replaced (g : Graph) : Prop :=
  ∀ old ∈ g.edges, old.removed = true → ∃ new ∈ g.edges, new.removed = false ∧ new.Replaces old

variable {g m n next : Graph} {number : Nat} {members : List Nat} {sets : List (List Nat)}

section Crossing

variable {v u w : Nat} {edgeIn edgeOut : Edge} {bothWays : Bool} (valid : m.WellFormed)
  (crossing : m.Crossing v edgeIn edgeOut u w)
include valid crossing

/-- A shortcut replaces what it makes obsolete. -/
theorem Crossing.replaces {old : Edge} (member : old ∈ m.obsolete v edgeIn edgeOut bothWays)
    (id : Nat) : (Edge.over id v edgeIn edgeOut bothWays).Replaces old := by
  obtain ⟨-, -, heavier, only⟩ := crossing.of_mem_obsolete valid member
  apply Edge.Replaces.of_drives
  · rfl
  · exact heavier
  · intro x y drives
    exact crossing.drives_over.mpr (only x y drives)

/-- A live edge stays live or is replaced by the new shortcut. -/
theorem Crossing.live_or_replaced {e : Edge} (member : e ∈ m.edges) (alive : e.removed = false) :
    ∃ new ∈ (m.bridge v edgeIn edgeOut bothWays).edges,
      new.removed = false ∧ (new = e ∨ new.Replaces e) := by
  obtain ⟨i, found⟩ := mem_edges_iff.mp member
  obtain ⟨now, after, -⟩ := Grows.bridge.edges i e found
  rcases crossing.edge_cases valid after with rfl | before | ⟨old, obsolete, before, -⟩
  · have known : i = m.edgeCount := by
      have named := (valid.bridge crossing.into.1 crossing.out.1).edge_id i _ after
      exact named.symm
    rw [known] at found
    cases (Array.getElem?_eq_some_iff.mp found).1.ne rfl
  · obtain rfl := Option.some.inj (found.symm.trans before)
    exact ⟨e, mem_edges_iff.mpr ⟨i, after⟩, alive, .inl rfl⟩
  · obtain rfl := Option.some.inj (found.symm.trans before)
    refine ⟨.over m.edgeCount v edgeIn edgeOut bothWays, ?_, rfl,
      .inr (crossing.replaces valid obsolete _)⟩
    exact mem_edges_iff.mpr ⟨m.edgeCount, by rw [bridge_edges, if_pos rfl]⟩

theorem Replaced.bridge (replaced : m.Replaced) :
    (m.bridge v edgeIn edgeOut bothWays).Replaced := by
  intro e member gone
  obtain ⟨i, found⟩ := mem_edges_iff.mp member
  rcases crossing.edge_cases valid found with rfl | before | ⟨old, obsolete, -, rfl⟩
  · cases gone
  · obtain ⟨first, there, alive, replaces⟩ := replaced e (mem_edges_iff.mpr ⟨i, before⟩) gone
    obtain ⟨new, present, live, same | better⟩ := crossing.live_or_replaced valid there alive
    · exact ⟨new, present, live, same ▸ replaces⟩
    · exact ⟨new, present, live, better.trans replaces⟩
  · obtain ⟨shortcut, ends, lighter, drives⟩ := crossing.replaces valid obsolete m.edgeCount
    refine ⟨_, mem_edges_iff.mpr ⟨m.edgeCount, ?_⟩, rfl, shortcut, ends, lighter, drives⟩
    rw [bridge_edges, if_pos rfl]

end Crossing

namespace Replaced

theorem of_plain (plain : g.Plain) : g.Replaced := by
  intro e member gone
  rw [(plain.edges e member).1] at gone
  cases gone

theorem step (replaced : m.Replaced) (valid : m.WellFormed) (step : Step number members m n) :
    n.Replaced := by
  rcases step.edges_cases with same | ⟨v, edgeIn, edgeOut, bothWays, u, w, bridging, rfl⟩
  · unfold Replaced
    rw [same]
    exact replaced
  · exact replaced.bridge valid bridging.toCrossing

theorem run (replaced : g.Replaced) (valid : g.WellFormed) (run : Run number g sets m) :
    m.Replaced :=
  run.keeps valid (fun before step kept => kept.step before step) replaced

end Replaced

/-- The vertex is not contracted in this round and remains to be contracted in a later one. -/
def Outlasts (g : Graph) (members : List Nat) (next : Graph) (v : Nat) : Prop :=
  v ∉ members ∧ v ∈ g.unprocessed ∧ v ∈ next.unprocessed

/-- Contraction changes edges only between vertices that outlast the round. -/
theorem Contracts.confined_outlasts (valid : m.WellFormed)
    (contracts : Contracts number members m n) : m.Confined (m.Outlasts members n) n := by
  apply (contracts.steps.confined valid).mono
  rintro v ⟨member, outside⟩
  exact ⟨outside, member, (contracts.closes.mem_unprocessed valid).mpr ⟨member, outside⟩⟩

end Graph

namespace Strategy

open RoadHierarchy.Graph

variable {s : Settings} {g : Graph} {extract : Extract} {h next : Hierarchy} {strategy : Strategy}
  {number : Nat} {members : List Nat} {sets : List (List Nat)}

/-- A round changes edges only between vertices that outlast it. -/
theorem Commits.confined (commits : strategy.Commits s number members h next)
    (positive : 0 < s.kNeighborhood) (valid : h.graph.WellFormed) :
    h.graph.Confined (h.graph.Outlasts members next.graph) next.graph := by
  obtain ⟨start, tuned, -, contracts⟩ := commits.contracts positive valid
  intro i e found
  have cases := contracts.confined_outlasts (tuned.wellFormed valid) i e found
  unfold Outlasts at cases ⊢
  rwa [tuned.edges, tuned.unprocessed] at cases

/-- Before and after every round each removed edge has a live replacement, and whatever the round
removes joins vertices that outlast it. -/
theorem Stage.removed_replaced (extracted : ofExtract extract = .ok g)
    (stage : strategy.Stage s g sets h) : h.graph.Replaced ∧
      ∀ members next, strategy.Commits s sets.length members h next → next.graph.Replaced ∧
        ∀ (i : Nat) (e : Edge), next.graph.edges[i]? = some e → e.removed = true →
          (∀ before, h.graph.edges[i]? = some before → before.removed = false) →
          h.graph.Outlasts members next.graph e.source ∧
            h.graph.Outlasts members next.graph e.target := by
  have valid := (reachable_ofExtract extracted).wellFormed
  have before := stage.wellFormed valid
  have positive := (Settings.positive_of_validate stage.usable).2.1
  have replaced := (Replaced.of_plain (plain_ofExtract extracted)).run valid (stage.run valid)
  refine ⟨replaced, fun members next commits => ⟨?_, ?_⟩⟩
  · exact replaced.run before (commits.run positive before)
  · intro i e found gone alive
    rcases commits.confined positive before i e found with same | outlasts
    · rw [alive e same] at gone
      cases gone
    · exact outlasts

/-- In a triangle with one long road, contracting the junction between the two short roads removes
the long one, which joins the other two junctions. -/
theorem Stage.removed_replaced_triangle : ∃ g next,
    ofExtract ⟨List.replicate 3 ⟨0, 0⟩,
      [⟨0, 1, 1, true⟩, ⟨1, 2, 1, true⟩, ⟨2, 0, 5, false⟩]⟩ = .ok g ∧
    (inOrder [1, 0, 2]).Stage {} g [] (.start g) ∧
    (inOrder [1, 0, 2]).Commits {} 0 [1] (.start g) next ∧
    next.graph.edges[2]? = some ⟨2, 2, 0, 5, 1, false, none, true⟩ ∧ next.graph.Replaced ∧
    g.Outlasts [1] next.graph 2 ∧ g.Outlasts [1] next.graph 0 := by
  have computed : (do
      let g ← ofExtract ⟨List.replicate 3 ⟨0, 0⟩,
        [⟨0, 1, 1, true⟩, ⟨1, 2, 1, true⟩, ⟨2, 0, 5, false⟩]⟩
      Settings.validate {}
      let next ← (Hierarchy.start g).contractNext {} (1, 0)
      return (g.unprocessed.length, g.edges[2]?, next.graph.edges[2]?)).toOption =
      some (3, some ⟨2, 2, 0, 5, 1, false, none, false⟩,
        some ⟨2, 2, 0, 5, 1, false, none, true⟩) := by
    decide +kernel
  obtain ⟨g, extracted, computed⟩ := bind_eq_ok.mp (toOption_eq_some.mp computed)
  obtain ⟨_, usable, computed⟩ := bind_eq_ok.mp computed
  obtain ⟨next, contracted, computed⟩ := bind_eq_ok.mp computed
  have values := pure_eq_ok.mp computed
  simp only [Prod.mk.injEq] at values
  obtain ⟨size, road, gone⟩ := values
  have stage : (inOrder [1, 0, 2]).Stage {} g [] (.start g) := .opening usable ⟨size.symm, rfl⟩
  have commits : (inOrder [1, 0, 2]).Commits {} 0 [1] (.start g) next := ⟨1, rfl, rfl, contracted⟩
  obtain ⟨-, rounds⟩ := removed_replaced extracted stage
  obtain ⟨replaced, removals⟩ := rounds [1] next commits
  refine ⟨g, next, extracted, stage, commits, gone, replaced, removals 2 _ gone rfl ?_⟩
  intro before found
  obtain rfl := Option.some.inj (road.symm.trans found)
  rfl

end Strategy

end RoadHierarchy
