import RoadHierarchy.Proofs.Graph.Networks

/-! # What happens to a graph over time

Three relations between a graph and a later one, each reflexive and transitive, so that what one
change keeps is kept by every sequence of changes. A later graph has all earlier edges, only flagged
where they have been removed; it differs only between vertices that were still open; and it
preserves distances in both directions, also over edges that were added and removed meanwhile.
-/

namespace RoadHierarchy

/-- The edge as it was, except that it may have been removed. -/
def Edge.Ages (old new : Edge) : Prop :=
  new = { old with removed := new.removed } ∧ (old.removed = true → new.removed = true)

namespace Edge.Ages

variable {old new last : Edge}

theorem refl (e : Edge) : e.Ages e := ⟨rfl, fun gone => gone⟩

theorem trans (first : old.Ages new) (second : new.Ages last) : old.Ages last := by
  refine ⟨?_, fun gone => second.2 (first.2 gone)⟩
  rw [second.1, first.1]

theorem live (ages : old.Ages new) (alive : new.removed = false) : old.removed = false := by
  cases flag : old.removed with
  | false => rfl
  | true => rw [ages.2 flag] at alive; cases alive

theorem weight (ages : old.Ages new) : new.weight = old.weight := by rw [ages.1]

theorem source (ages : old.Ages new) : new.source = old.source := by rw [ages.1]

theorem target (ages : old.Ages new) : new.target = old.target := by rw [ages.1]

theorem isShortcut (ages : old.Ages new) : new.isShortcut = old.isShortcut := by
  rw [ages.1]
  rfl

theorem drives {u w : Nat} (ages : old.Ages new) : new.Drives u w ↔ old.Drives u w := by
  rw [ages.1]
  rfl

end Edge.Ages

namespace Graph

/-- The later graph has the same vertices and all earlier edges under their ids. -/
structure Grows (g h : Graph) : Prop where
  vertexCount : h.vertexCount = g.vertexCount
  edges : ∀ (i : Nat) (old : Edge), g.edges[i]? = some old →
    ∃ new, h.edges[i]? = some new ∧ old.Ages new

/-- Edges have appeared or changed only between vertices of a kind. -/
def Confined (kind : Nat → Prop) (g h : Graph) : Prop :=
  ∀ (i : Nat) (e : Edge), h.edges[i]? = some e →
    g.edges[i]? = some e ∨ (kind e.source ∧ kind e.target)

/-- The live edges of a graph and all that have been added since, even if removed again. -/
def everLive (g h : Graph) : Network := fun e u w =>
  ∃ i : Nat, h.edges[i]? = some e ∧ (∀ old, g.edges[i]? = some old → old.removed = false) ∧
    e.Drives u w

/-- No way has become shorter or longer: between vertices of a kind, every edge that was ever live
stands for an earlier way between such vertices, and the later graph has one that is no longer. -/
structure Preserves (kind : Nat → Prop) (g h : Graph) : Prop where
  grows : g.Grows h
  sound : ∀ e u w, g.everLive h e u w → kind u → kind w →
    (g.live.within kind).Reaches u w e.weight
  kept : ∀ e u w, g.everLive h e u w → ∃ e', h.live e' u w ∧ e'.weight ≤ e.weight

variable {g m h : Graph} {kind : Nat → Prop} {e : Edge} {u w : Nat}

namespace Grows

theorem of_edges_eq (vertexCount : h.vertexCount = g.vertexCount) (edges : h.edges = g.edges) :
    g.Grows h :=
  ⟨vertexCount, fun _ old found => ⟨old, by rw [edges]; exact found, .refl old⟩⟩

theorem trans (first : g.Grows m) (second : m.Grows h) : g.Grows h := by
  refine ⟨second.vertexCount.trans first.vertexCount, fun i old found => ?_⟩
  obtain ⟨middle, there, young⟩ := first.edges i old found
  obtain ⟨new, last, aged⟩ := second.edges i middle there
  exact ⟨new, last, young.trans aged⟩

theorem mem_edges (grows : g.Grows h) {old : Edge} (member : old ∈ g.edges) :
    ∃ new ∈ h.edges, old.Ages new := by
  obtain ⟨i, found⟩ := mem_edges_iff.mp member
  obtain ⟨new, there, aged⟩ := grows.edges i old found
  exact ⟨new, mem_edges_iff.mpr ⟨i, there⟩, aged⟩

/-- An edge of the later graph is an aged edge of the earlier one if that has one in its place. -/
theorem ages (grows : g.Grows h) {i : Nat} {old new : Edge} (before : g.edges[i]? = some old)
    (after : h.edges[i]? = some new) : old.Ages new := by
  obtain ⟨other, found, aged⟩ := grows.edges i old before
  obtain rfl := Option.some.inj (after.symm.trans found)
  exact aged

theorem everLive_of_live (grows : g.Grows h) (step : h.live e u w) : g.everLive h e u w := by
  obtain ⟨member, alive, drives⟩ := step
  obtain ⟨i, found⟩ := mem_edges_iff.mp member
  exact ⟨i, found, fun old before => (grows.ages before found).live alive, drives⟩

/-- An edge that was live has been ever live, in the form it has now. -/
theorem everLive_of_before (grows : g.Grows h) (step : g.live e u w) :
    ∃ new, e.Ages new ∧ g.everLive h new u w := by
  obtain ⟨member, alive, drives⟩ := step
  obtain ⟨i, found⟩ := mem_edges_iff.mp member
  obtain ⟨new, after, aged⟩ := grows.edges i e found
  refine ⟨new, aged, i, after, fun old before => ?_, aged.drives.mpr drives⟩
  obtain rfl := Option.some.inj (found.symm.trans before)
  exact alive

end Grows

namespace Confined

theorem of_edges_eq (edges : h.edges = g.edges) : g.Confined kind h :=
  fun _ _ found => .inl (by rw [← edges]; exact found)

theorem trans (first : g.Confined kind m) (second : m.Confined kind h) : g.Confined kind h := by
  intro i e found
  rcases second i e found with before | changed
  · exact first i e before
  · exact .inr changed

theorem mono {wider : Nat → Prop} (confined : g.Confined kind h)
    (imp : ∀ v, kind v → wider v) : g.Confined wider h := by
  intro i e found
  exact (confined i e found).imp id fun ends => ⟨imp _ ends.1, imp _ ends.2⟩

/-- A live edge with an end outside of the kind stays as it is. -/
theorem live_of_outside (confined : g.Confined kind h) (grows : g.Grows h) (step : g.live e u w)
    (outside : ¬ kind u ∨ ¬ kind w) : h.live e u w := by
  obtain ⟨member, alive, drives⟩ := step
  obtain ⟨i, found⟩ := mem_edges_iff.mp member
  obtain ⟨new, after, aged⟩ := grows.edges i e found
  rcases confined i new after with before | ⟨source, target⟩
  · obtain rfl := Option.some.inj (found.symm.trans before)
    exact ⟨mem_edges_iff.mpr ⟨i, after⟩, alive, drives⟩
  · rw [aged.source] at source
    rw [aged.target] at target
    rcases drives with ⟨rfl, rfl⟩ | ⟨-, rfl, rfl⟩
    · exact (outside.elim (· source) (· target)).elim
    · exact (outside.elim (· target) (· source)).elim

/-- A live edge with an end outside of the kind is as it was. -/
theorem live_before (confined : g.Confined kind h) (step : h.live e u w)
    (outside : ¬ kind u ∨ ¬ kind w) : g.live e u w := by
  obtain ⟨member, alive, drives⟩ := step
  obtain ⟨i, found⟩ := mem_edges_iff.mp member
  rcases confined i e found with before | ⟨source, target⟩
  · exact ⟨mem_edges_iff.mpr ⟨i, before⟩, alive, drives⟩
  · rcases drives with ⟨rfl, rfl⟩ | ⟨-, rfl, rfl⟩
    · exact (outside.elim (· source) (· target)).elim
    · exact (outside.elim (· target) (· source)).elim

end Confined

namespace Preserves

theorem of_edges_eq (vertexCount : h.vertexCount = g.vertexCount) (edges : h.edges = g.edges) :
    g.Preserves kind h := by
  have alive : ∀ e u w, g.everLive h e u w → g.live e u w := by
    rintro e u w ⟨i, found, live, drives⟩
    rw [edges] at found
    exact ⟨mem_edges_iff.mpr ⟨i, found⟩, live e found, drives⟩
  refine ⟨.of_edges_eq vertexCount edges, fun e u w ever start goal => ?_, fun e u w ever => ?_⟩
  · exact .single ⟨alive e u w ever, start, goal⟩
  · refine ⟨e, ?_, le_rfl⟩
    rw [live, edges]
    exact alive e u w ever

theorem trans (first : g.Preserves kind m) (second : m.Preserves kind h) :
    g.Preserves kind h := by
  have split : ∀ e u w, g.everLive h e u w →
      m.everLive h e u w ∨ ∃ old, old.Ages e ∧ g.everLive m old u w := by
    rintro e u w ⟨i, found, live, drives⟩
    cases before : m.edges[i]? with
    | none =>
      refine .inl ⟨i, found, fun old there => ?_, drives⟩
      rw [before] at there
      cases there
    | some old =>
      have aged := second.grows.ages before found
      exact .inr ⟨old, aged, i, before, live, aged.drives.mp drives⟩
  refine ⟨first.grows.trans second.grows, fun e u w ever start goal => ?_, fun e u w ever => ?_⟩
  · rcases split e u w ever with later | ⟨old, aged, earlier⟩
    · refine .of_covers ?_ (second.sound e u w later start goal)
      rintro e' u' w' ⟨step, start', goal'⟩
      exact first.sound e' u' w' (first.grows.everLive_of_live step) start' goal'
    · rw [aged.weight]
      exact first.sound old u w earlier start goal
  · rcases split e u w ever with later | ⟨old, aged, earlier⟩
    · exact second.kept e u w later
    · obtain ⟨middle, step, light⟩ := first.kept old u w earlier
      obtain ⟨new, young, later⟩ := second.grows.everLive_of_before step
      obtain ⟨last, final, lighter⟩ := second.kept new u w later
      refine ⟨last, final, ?_⟩
      rw [young.weight] at lighter
      rw [aged.weight]
      exact lighter.trans light

/-- A live edge has a live successor that is no heavier. -/
theorem successor (preserves : g.Preserves kind h) (step : g.live e u w) :
    ∃ e', h.live e' u w ∧ e'.weight ≤ e.weight := by
  obtain ⟨new, aged, ever⟩ := preserves.grows.everLive_of_before step
  rw [← aged.weight]
  exact preserves.kept new u w ever

/-- Not even all the edges that have ever been live make a distance shorter. -/
theorem distance_everLive (preserves : g.Preserves (fun _ => True) h) :
    (g.everLive h).distance u w = g.live.distance u w := by
  refine Network.distance_eq (fun limit reaches => ?_) fun limit reaches => ?_
  · refine reaches.of_covers fun e x y step => ?_
    obtain ⟨e', step', light⟩ := preserves.successor step
    exact (Network.Reaches.single (preserves.grows.everLive_of_live step')).mono light
  · refine reaches.of_covers fun e x y ever => ?_
    exact (preserves.sound e x y ever trivial trivial).of_subset fun _ _ _ step => step.1

/-- The later graph has the distances of the earlier one. -/
theorem distance_live (preserves : g.Preserves (fun _ => True) h) :
    h.live.distance u w = g.live.distance u w := by
  rw [← preserves.distance_everLive]
  refine Network.distance_eq (fun limit reaches => ?_) fun limit reaches => ?_
  · refine reaches.of_covers fun e x y ever => ?_
    obtain ⟨e', step, light⟩ := preserves.kept e x y ever
    exact (Network.Reaches.single step).mono light
  · exact reaches.of_subset fun e x y step => preserves.grows.everLive_of_live step

end Preserves

end Graph

end RoadHierarchy
