import RoadHierarchy.Proofs.Contraction.Composition
import RoadHierarchy.Proofs.Contraction.Stages
import RoadHierarchy.Proofs.HopPath.Combine
import RoadHierarchy.Run.Preprocess

/-! # Hop indices expand shortcuts

The hop index of a hierarchy has one key for every live shortcut. The location of the key and the
count of the shortcut cut a stretch out of a stored path, which is a way over input edges from the
source of the shortcut to its target.
-/

namespace RoadHierarchy

namespace Graph

/-- The shortcuts that have not been removed, by id. -/
def liveShortcuts (g : Graph) : List Edge :=
  g.edges.toList.filter fun e => e.isShortcut && !e.removed

variable {g : Graph} {e : Edge}

theorem mem_edges_of_mem_liveShortcuts (member : e ∈ g.liveShortcuts) : e ∈ g.edges :=
  Array.mem_toList_iff.mp (List.mem_filter.mp member).1

theorem WellFormed.pairwise_liveShortcuts (valid : g.WellFormed) :
    (g.liveShortcuts.map (·.id)).Pairwise (· < ·) := by
  have sorted : (g.edges.toList.map (·.id)).Pairwise (· < ·) := by
    rw [valid.edge_ids]
    exact List.pairwise_lt_range
  exact sorted.sublist (List.filter_sublist.map _)

end Graph

namespace HopIndex

open RoadHierarchy.Graph

variable {g : Graph}

theorem expansions_eq_ok (valid : g.WellFormed) : expansions g =
    .ok (g.liveShortcuts.map fun e => (e.id, g.drive [⟨e.id, e.source⟩])) := by
  refine mapM_eq_ok fun e member => bind_eq_ok.mpr ⟨_, ?_, rfl⟩
  exact unpack_eq_ok valid (mem_edges_of_mem_liveShortcuts member)

end HopIndex

namespace Hierarchy

variable {s : Settings} {g : Graph} {h : Hierarchy} {extract : Extract}

/-- A well-formed hierarchy has a hop index. Its keys come with what their shortcuts unpack to. -/
theorem exists_hopIndex (valid : h.graph.WellFormed) : ∃ index, h.hopIndex = .ok index ∧
    index.Sound ∧ index.sequences =
      h.graph.liveShortcuts.map fun e => (e.id, h.graph.drive [⟨e.id, e.source⟩]) := by
  have expanded := HopIndex.expansions_eq_ok valid
  have sound := HopIndex.sound_combine
    (h.graph.liveShortcuts.map fun e => (e.id, h.graph.drive [⟨e.id, e.source⟩]))
  refine ⟨_, bind_eq_ok.mpr ⟨_, map_eq_ok.mpr ⟨_, expanded, rfl⟩, rfl⟩, sound, ?_⟩
  rw [HopIndex.sequences_combine, Ascending.ofEntries_of_pairwise]
  rw [List.map_map]
  exact valid.pairwise_liveShortcuts

/-- The hop index of a hierarchy has exactly the live shortcuts for keys. Each of them stands for
as many input edges as it counts, from its location on, and they lead from its source to its target
and are as long as it is. -/
theorem hopIndex_expands (extracted : Graph.ofExtract extract = .ok g) (built : BuiltFrom s g h) :
    ∃ index, h.hopIndex = .ok index ∧
      index.locations.map (·.1) = h.graph.liveShortcuts.map (·.id) ∧
      ∀ e ∈ h.graph.liveShortcuts, e.count < countCeiling → ∃ location path,
        index.location? e.id = some location ∧ index.path? location.path = some path ∧
          location.offset + e.count ≤ path.edges.length ∧
          ∃ route, route.map (·.id) = (path.edges.drop location.offset).take e.count ∧
            g.live.Route e.source route e.target ∧ Edge.totalWeight route = e.weight := by
  have before := (Graph.reachable_ofExtract extracted).wellFormed
  have plain := Graph.plain_ofExtract extracted
  obtain ⟨rounds, run, -⟩ := built.run before
  have valid := run.wellFormed before
  have founded := (Graph.Founded.of_plain plain).run before run
  obtain ⟨index, computed, sound, given⟩ := exists_hopIndex valid
  refine ⟨index, computed, ?_, fun e member few => ?_⟩
  · rw [sound.keys, given, List.map_map]
    rfl
  · have listed : (e.id, h.graph.drive [⟨e.id, e.source⟩]) ∈ index.sequences := by
      rw [given]
      exact List.mem_map_of_mem member
    obtain ⟨location, path, found, stored, occurs⟩ := sound.exists_location listed
    obtain ⟨route, leads, short, count, drive⟩ := founded.unpacks plain valid
      (Graph.mem_edges_of_mem_liveShortcuts member) (.inl ⟨rfl, rfl⟩)
    rw [drive] at occurs
    have length : (route.map (·.id)).length = e.count := by
      rw [List.length_map]
      omega
    refine ⟨location, path, found, stored, ?_, route, ?_, leads, short⟩
    · rw [← length]
      exact occurs.add_length_le
    · rw [← length]
      exact occurs.take_drop.symm

/-- A road that can be driven both ways lies between two that cannot. The shortcut over its further
end stands for this road, driven against its direction, and the next one. -/
theorem hopIndex_expands_row : ∃ g h index location path, Graph.ofExtract
      ⟨List.replicate 4 ⟨0, 0⟩, [⟨0, 1, 1, false⟩, ⟨2, 1, 2, true⟩, ⟨2, 3, 4, false⟩]⟩ = .ok g ∧
    BuiltFrom {} g h ∧ h.hopIndex = .ok index ∧ index.location? 3 = some location ∧
      index.path? location.path = some path ∧ location.offset + 2 ≤ path.edges.length ∧
      ∃ route, route.map (·.id) = (path.edges.drop location.offset).take 2 ∧
        g.live.Route 1 route 3 ∧ Edge.totalWeight route = 6 := by
  have computed : (do
      let g ← Graph.ofExtract
        ⟨List.replicate 4 ⟨0, 0⟩, [⟨0, 1, 1, false⟩, ⟨2, 1, 2, true⟩, ⟨2, 3, 4, false⟩]⟩
      let h ← buildInOrder {} [2, 1, 0, 3] g
      let shortcut : Edge := ⟨3, 1, 3, 6, 2, false, some (1, 2), false⟩
      return decide (shortcut ∈ h.graph.liveShortcuts)).toOption = some true := by
    decide +kernel
  obtain ⟨g, extracted, computed⟩ := bind_eq_ok.mp (toOption_eq_some.mp computed)
  obtain ⟨h, ordered, computed⟩ := bind_eq_ok.mp computed
  have member := of_decide_eq_true (pure_eq_ok.mp computed)
  have built : BuiltFrom {} g h := .inr ⟨[2, 1, 0, 3], ordered⟩
  obtain ⟨index, found, -, expands⟩ := hopIndex_expands extracted built
  obtain ⟨location, path, placed, stored, long, leads⟩ := expands _ member (by decide)
  exact ⟨g, h, index, location, path, extracted, built, found, placed, stored, long, leads⟩

end Hierarchy

end RoadHierarchy
