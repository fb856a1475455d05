import RoadHierarchy.Graph.Unpacking
import RoadHierarchy.Proofs.Graph.Growth
import RoadHierarchy.Proofs.Graph.Reachable

/-! # What shortcuts stand for

In a graph that has grown out of input edges, every further edge stands for two older ones, driven
one after the other. Unpacking then gives a route over input edges, from wherever the edge is
entered to the other end, and as long as the edge is.
-/

namespace RoadHierarchy

/-- The shortcut stands for driving over the first edge to a vertex and over the second from
there. -/
structure Edge.Composes (e first second : Edge) (via : Nat) : Prop where
  pair : e.pair = some (first.id, second.id)
  into : first.Drives e.source via
  out : second.Drives via e.target
  apart : e.source ≠ e.target
  source_apart : e.source ≠ via
  target_apart : e.target ≠ via
  weight : e.weight = first.weight + second.weight
  count : e.count = addCount first.count second.count
  both : e.bidirectional = true → first.bidirectional = true ∧ second.bidirectional = true

namespace Edge

variable {e first second e' first' second' : Edge} {via : Nat}

theorem isShortcut_eq_false : e.isShortcut = false ↔ e.pair = none :=
  Option.isSome_eq_false_iff.trans Option.isNone_iff_eq_none

theorem Composes.isShortcut (composes : e.Composes first second via) : e.isShortcut = true := by
  rw [Edge.isShortcut, composes.pair]
  rfl

theorem Composes.ages (composes : e.Composes first second via) (whole : e.Ages e')
    (left : first.Ages first') (right : second.Ages second') :
    e'.Composes first' second' via := by
  obtain ⟨pair, into, out, apart, sourceApart, targetApart, weight, count, both⟩ := composes
  rw [whole.1, left.1, right.1]
  exact ⟨pair, into, out, apart, sourceApart, targetApart, weight, count, both⟩

end Edge

namespace Graph

/-- Every edge is an input edge, or stands for two others. -/
structure Founded (g h : Graph) : Prop where
  rooted : ∀ e ∈ h.edges, e.pair = none → ∃ old ∈ g.edges, old.Ages e
  composed : ∀ e ∈ h.edges, ∀ pair, e.pair = some pair →
    ∃ first ∈ h.edges, ∃ second ∈ h.edges, ∃ via, e.Composes first second via

variable {g h : Graph}

theorem drive_cons_of_none {leg : Leg} (rest : List Leg) (whole : g.split? leg = none) :
    g.drive (leg :: rest) = leg.edge :: g.drive rest := by
  rw [drive]
  split
  · rfl
  · next halves =>
    rw [whole] at halves
    cases halves

theorem drive_cons_of_some {leg left right : Leg} (rest : List Leg)
    (halves : g.split? leg = some (left, right)) :
    g.drive (leg :: rest) = g.drive (left :: right :: rest) := by
  rw [drive]
  split
  · next whole =>
    rw [halves] at whole
    cases whole
  · next found =>
    rw [halves] at found
    cases found
    rfl

/-- Legs are driven independently of one another. -/
theorem drive_append (g : Graph) (legs more : List Leg) :
    g.drive (legs ++ more) = g.drive legs ++ g.drive more := by
  induction legs using drive.induct g with
  | case1 =>
    rw [List.nil_append, drive, List.nil_append]
  | case2 leg rest whole ih =>
    rw [List.cons_append, drive_cons_of_none _ whole, ih, drive_cons_of_none _ whole]
    rfl
  | case3 leg rest left right halves ih =>
    rw [List.cons_append, drive_cons_of_some _ halves, drive_cons_of_some _ halves, ← ih]
    rfl

/-- A shortcut is driven half by half. -/
theorem drive_of_split? {leg left right : Leg} (halves : g.split? leg = some (left, right)) :
    g.drive [leg] = g.drive [left] ++ g.drive [right] := by
  rw [drive_cons_of_some [] halves, ← drive_append]
  rfl

theorem split?_of_isShortcut_false (valid : h.WellFormed) {e : Edge} (member : e ∈ h.edges)
    (input : e.isShortcut = false) (start : Nat) : h.split? ⟨e.id, start⟩ = none := by
  have found : h.edge? e.id = some e :=
    (edge?_eq_some (valid.edge_lt member)).mpr (valid.find_edge member)
  simp [split?, found, Edge.isShortcut_eq_false.mp input]

theorem split?_of_composes (valid : h.WellFormed) {e first second : Edge} {via : Nat}
    (member : e ∈ h.edges) (left : first ∈ h.edges) (composes : e.Composes first second via)
    (start : Nat) : h.split? ⟨e.id, start⟩ = some
      (if start = e.source then (⟨first.id, e.source⟩, ⟨second.id, via⟩)
        else (⟨second.id, e.target⟩, ⟨first.id, via⟩)) := by
  have found : h.edge? e.id = some e :=
    (edge?_eq_some (valid.edge_lt member)).mpr (valid.find_edge member)
  have half : h.edge? first.id = some first :=
    (edge?_eq_some (valid.edge_lt left)).mpr (valid.find_edge left)
  have older := valid.pair_lt e member _ composes.pair
  simp [split?, found, composes.pair, half, older, Edge.legs, composes.into.other]

theorem unpack_eq_ok (valid : h.WellFormed) {e : Edge} (member : e ∈ h.edges) :
    h.unpack e.id = .ok (h.drive [⟨e.id, e.source⟩]) := by
  have found := (edge?_eq_some (valid.edge_lt member)).mpr (valid.find_edge member)
  exact bind_eq_ok.mpr ⟨e, edge_eq_ok.mpr found, rfl⟩

/-- The edges that are no shortcuts, each in the directions it allows, and also if they have been
removed. -/
def inputs (h : Graph) : Network := fun e u w => e ∈ h.edges ∧ e.isShortcut = false ∧ e.Drives u w

/-- A way over input edges, with the ids that unpacking lists for it. -/
def Unpacks (g h : Graph) (e : Edge) (start goal : Nat) : Prop :=
  ∃ route, g.live.Route start route goal ∧ Edge.totalWeight route = e.weight ∧
    e.count = min route.length countCeiling ∧ h.drive [⟨e.id, start⟩] = route.map (·.id)

/-- Driving the edge from one vertex to another means driving these input edges. A shortcut that is
driven from its target has its halves in reverse order, each driven the other way. -/
inductive Expands (h : Graph) : Edge → Nat → List Edge → Nat → Prop
  | input {e : Edge} {u w : Nat} : h.inputs e u w → Expands h e u [e] w
  | forth {e first second : Edge} {via : Nat} {before after : List Edge} :
      e ∈ h.edges → e.Composes first second via →
      Expands h first e.source before via → Expands h second via after e.target →
      Expands h e e.source (before ++ after) e.target
  | back {e first second : Edge} {via : Nat} {before after : List Edge} :
      e ∈ h.edges → e.Composes first second via → e.bidirectional = true →
      Expands h second e.target after via → Expands h first via before e.source →
      Expands h e e.target (after ++ before) e.source

namespace Expands

variable {e : Edge} {u w : Nat} {parts : List Edge}

theorem mem_edges (expands : h.Expands e u parts w) : e ∈ h.edges := by
  cases expands with
  | input step => exact step.1
  | forth member => exact member
  | back member => exact member

theorem route (expands : h.Expands e u parts w) : h.inputs.Route u parts w := by
  induction expands with
  | input step => exact .cons step (.nil _)
  | forth _ _ _ _ before after => exact before.append after
  | back _ _ _ _ _ after before => exact after.append before

theorem ne_nil (expands : h.Expands e u parts w) : parts ≠ [] := by
  induction expands with
  | input => exact List.cons_ne_nil _ _
  | forth _ _ _ _ before => exact List.append_ne_nil_of_left_ne_nil before _
  | back _ _ _ _ _ after => exact List.append_ne_nil_of_left_ne_nil after _

theorem totalWeight (expands : h.Expands e u parts w) : Edge.totalWeight parts = e.weight := by
  induction expands with
  | input => rw [Edge.totalWeight_cons, Edge.totalWeight_nil, Nat.add_zero]
  | forth _ composes _ _ before after =>
    rw [Edge.totalWeight_append, before, after, composes.weight]
  | back _ composes _ _ _ after before =>
    rw [Edge.totalWeight_append, before, after, composes.weight, Nat.add_comm]

/-- When input edges count once, an edge counts what it expands to, up to the ceiling. -/
theorem count (single : ∀ e ∈ h.edges, e.isShortcut = false → e.count = 1)
    (expands : h.Expands e u parts w) : e.count = min parts.length countCeiling := by
  induction expands with
  | input step => simp [single _ step.1 step.2.1, countCeiling]
  | forth _ composes _ _ before after =>
    rw [composes.count, addCount, before, after, List.length_append]
    omega
  | back _ composes _ _ _ after before =>
    rw [composes.count, addCount, before, after, List.length_append]
    omega

/-- A two-way edge expands to the reversed route the other way: at every level, the halves change
places and are driven the other way. -/
theorem reverse (expands : h.Expands e u parts w) (both : e.bidirectional = true) :
    h.Expands e w parts.reverse u := by
  induction expands with
  | input step => exact .input ⟨step.1, step.2.1, step.2.2.reverse both⟩
  | forth member composes _ _ before after =>
    obtain ⟨leftBoth, rightBoth⟩ := composes.both both
    rw [List.reverse_append]
    exact .back member composes both (after rightBoth) (before leftBoth)
  | back member composes _ _ _ after before =>
    obtain ⟨leftBoth, rightBoth⟩ := composes.both both
    rw [List.reverse_append]
    exact .forth member composes (before leftBoth) (after rightBoth)

/-- Unpacking lists what the edge expands to. -/
theorem drive (expands : h.Expands e u parts w) (valid : h.WellFormed) :
    h.drive [⟨e.id, u⟩] = parts.map (·.id) := by
  induction expands with
  | input step =>
    rw [drive_cons_of_none [] (split?_of_isShortcut_false valid step.1 step.2.1 _), Graph.drive]
    rfl
  | @forth e _ _ _ _ _ member composes left right before after =>
    have halves := split?_of_composes valid member left.mem_edges composes e.source
    rw [if_pos rfl] at halves
    rw [drive_of_split? halves, before, after, List.map_append]
  | @back e _ _ _ _ _ member composes both right left after before =>
    have halves := split?_of_composes valid member left.mem_edges composes e.target
    rw [if_neg composes.apart.symm] at halves
    rw [drive_of_split? halves, after, before, List.map_append]

end Expands

namespace Founded

variable {e : Edge} {u w : Nat} {parts : List Edge}

/-- Every edge expands to input edges, in whichever direction it is driven. -/
theorem expands (founded : g.Founded h) (valid : h.WellFormed) (member : e ∈ h.edges)
    (drives : e.Drives u w) : ∃ parts, h.Expands e u parts w := by
  induction named : e.id using Nat.strongRecOn generalizing e u w with
  | ind id ih =>
    cases pair : e.pair with
    | none => exact ⟨[e], .input ⟨member, Edge.isShortcut_eq_false.mpr pair, drives⟩⟩
    | some ids =>
      obtain ⟨first, left, second, right, via, composes⟩ := founded.composed e member ids pair
      have older := valid.pair_lt e member _ composes.pair
      rw [named] at older
      rcases drives with ⟨rfl, rfl⟩ | ⟨both, rfl, rfl⟩
      · obtain ⟨before, into⟩ := ih _ older.1 left composes.into rfl
        obtain ⟨after, out⟩ := ih _ older.2 right composes.out rfl
        exact ⟨_, .forth member composes into out⟩
      · obtain ⟨leftBoth, rightBoth⟩ := composes.both both
        obtain ⟨after, into⟩ := ih _ older.2 right (composes.out.reverse rightBoth) rfl
        obtain ⟨before, out⟩ := ih _ older.1 left (composes.into.reverse leftBoth) rfl
        exact ⟨_, .back member composes both into out⟩

/-- The input edges still count once. -/
theorem count_eq_one (founded : g.Founded h) (plain : g.Plain) (member : e ∈ h.edges)
    (input : e.isShortcut = false) : e.count = 1 := by
  obtain ⟨old, there, aged⟩ := founded.rooted e member (Edge.isShortcut_eq_false.mp input)
  rw [aged.1]
  exact (plain.edges old there).2.2

/-- A route over input edges was a route from the beginning. -/
theorem exists_route (founded : g.Founded h) (plain : g.Plain) (leads : h.inputs.Route u parts w) :
    ∃ olds, g.live.Route u olds w ∧ olds.map (·.id) = parts.map (·.id) ∧
      Edge.totalWeight olds = Edge.totalWeight parts := by
  induction leads with
  | nil v => exact ⟨[], .nil v, rfl, rfl⟩
  | cons step _ ih =>
    obtain ⟨member, input, drives⟩ := step
    obtain ⟨olds, onward, ids, short⟩ := ih
    obtain ⟨old, there, aged⟩ := founded.rooted _ member (Edge.isShortcut_eq_false.mp input)
    have alive := (plain.edges old there).1
    refine ⟨old :: olds, .cons ⟨there, alive, aged.drives.mp drives⟩ onward, ?_, ?_⟩
    · rw [List.map_cons, List.map_cons, ids, aged.1]
    · rw [Edge.totalWeight_cons, Edge.totalWeight_cons, short, aged.weight]

/-- Unpacking lists a route over input edges, in whichever direction the edge is driven. -/
theorem unpacks (founded : g.Founded h) (plain : g.Plain) (valid : h.WellFormed)
    (member : e ∈ h.edges) {start goal : Nat} (drives : e.Drives start goal) :
    Unpacks g h e start goal := by
  obtain ⟨parts, expands⟩ := founded.expands valid member drives
  obtain ⟨route, leads, ids, short⟩ := founded.exists_route plain expands.route
  have single := fun e member input => founded.count_eq_one plain (e := e) member input
  refine ⟨route, leads, short.trans expands.totalWeight, ?_, (expands.drive valid).trans ids.symm⟩
  rw [expands.count single, ← List.length_map (·.id), ← ids, List.length_map]

end Founded

end Graph

end RoadHierarchy
