import Mathlib.Algebra.BigOperators.Group.Finset.Basic
import Mathlib.Data.Prod.Lex
import RoadHierarchy.Proofs.Contraction.Overflow
import RoadHierarchy.Proofs.Contraction.Simulation
import RoadHierarchy.Proofs.Graph.Surroundings

/-! # What a simulation encodes

A pair of edges over a vertex needs a shortcut when the search between its ends finds no witness that
is as short. A simulation lists exactly these pairs, the two directions of a shortcut as one entry,
and it counts them, the edges that occur in them and what all of these stand for.
-/

namespace RoadHierarchy

/-- The pairs of an edge in and an edge out that the bypass stands for. -/
def Bypass.directions (b : Bypass) : List (Nat × Nat) :=
  if b.bothWays then [(b.edgeIn, b.edgeOut), (b.edgeOut, b.edgeIn)] else [(b.edgeIn, b.edgeOut)]

/-- The simulation says that these pairs of edges need a shortcut, and says nothing twice. -/
structure Simulation.Encodes (simulation : Simulation) (needed : Finset (Edge × Edge)) : Prop where
  ascending : simulation.bypasses.Pairwise fun a b =>
    toLex (a.edgeIn, a.edgeOut) < toLex (b.edgeIn, b.edgeOut)
  single : ∀ a ∈ simulation.bypasses, ∀ b ∈ simulation.bypasses,
    (b.edgeIn, b.edgeOut) ≠ (a.edgeOut, a.edgeIn)
  apart : (simulation.bypasses.flatMap Bypass.directions).Nodup
  whole : (simulation.bypasses.flatMap Bypass.directions).toFinset =
    needed.image fun pair => (pair.1.id, pair.2.id)
  bothWays : ∀ b ∈ simulation.bypasses, b.bothWays = true →
    ∃ pair ∈ needed, (pair.1.id, pair.2.id) = (b.edgeIn, b.edgeOut) ∧
      pair.1.bidirectional = true ∧ pair.2.bidirectional = true
  shortcuts : simulation.shortcuts = needed.card
  countAdded : simulation.countAdded = ∑ pair ∈ needed, (pair.1.count + pair.2.count)
  bypassedEdges : simulation.bypassedEdges = (needed.image Prod.fst ∪ needed.image Prod.snd).card
  countRemoved : simulation.countRemoved =
    ∑ edge ∈ needed.image Prod.fst ∪ needed.image Prod.snd, edge.count

namespace Graph

/-- The search for a witness between the ends of a pair of edges over the vertex. -/
def pairQuery (g : Graph) (hopLimit v : Nat) (avoids : Nat → Bool) (pair : Edge × Edge) :
    Witness.Query :=
  ⟨g, pair.2.other v, pair.1.weight + pair.2.weight, hopLimit, avoids⟩

/-- The pair leads over the vertex between different unprocessed vertices. -/
def LeadsOver (g : Graph) (v : Nat) (pair : Edge × Edge) : Prop :=
  g.Passage v pair.1 pair.2 (pair.1.other v) (pair.2.other v)

/-- The pair leads over the vertex, and the search finds no witness that is as short. -/
def Needs (g : Graph) (hopLimit v : Nat) (avoids : Nat → Bool) (pair : Edge × Edge) : Prop :=
  g.LeadsOver v pair ∧
    (g.pairQuery hopLimit v avoids pair).hasPathFrom (pair.1.other v) = .ok false

/-- No sum has to be formed that has no room in its width. -/
def Fits (g : Graph) (hopLimit v : Nat) (avoids : Nat → Bool) : Prop :=
  ∀ pair, g.LeadsOver v pair → pair.1.weight + pair.2.weight < 2 ^ 64 ∧
    (g.pairQuery hopLimit v avoids pair).hasPathFrom (pair.1.other v) ≠ .error .overflow

/-- The outcome encodes the pairs that need a shortcut, or it is an overflow if a sum does not
fit. -/
def Reports (g : Graph) (hopLimit v : Nat) (avoids : Nat → Bool)
    (outcome : Except Failure Simulation) : Prop :=
  (g.Fits hopLimit v avoids → ∃ simulation needed, outcome = .ok simulation ∧
    (∀ pair, pair ∈ needed ↔ g.Needs hopLimit v avoids pair) ∧ simulation.Encodes needed) ∧
  (¬ g.Fits hopLimit v avoids → outcome = .error .overflow)

end Graph

namespace Simulation

section Bypasses

variable {needed : List (Nat × Nat)} {a b : Bypass} {pair : Nat × Nat}

theorem mem_directions : pair ∈ b.directions ↔ b.Covers pair.1 pair.2 := by
  obtain ⟨edgeIn, edgeOut⟩ := pair
  unfold Bypass.directions Bypass.Covers
  cases b.bothWays <;> simp [eq_comm, and_comm]

/-- Of the two directions of a shortcut one is listed at most. -/
theorem not_swapped (first : a ∈ pairUp needed) (second : b ∈ pairUp needed) :
    (b.edgeIn, b.edgeOut) ≠ (a.edgeOut, a.edgeIn) := by
  intro swapped
  obtain ⟨into, out⟩ := Prod.mk.inj swapped
  obtain ⟨listed, kept, -⟩ := mem_pairUp.mp first
  obtain ⟨there, stays, -⟩ := mem_pairUp.mp second
  rw [into, out] at there stays
  have lower := kept.resolve_right (not_not_intro there)
  have higher := stays.resolve_right (not_not_intro listed)
  exact Nat.lt_asymm lower higher

/-- The bypasses stand for the needed pairs. -/
theorem mem_flatMap_directions (turns : ∀ pair ∈ needed, pair.1 ≠ pair.2) :
    pair ∈ (pairUp needed).flatMap Bypass.directions ↔ pair ∈ needed := by
  obtain ⟨edgeIn, edgeOut⟩ := pair
  simp only [List.mem_flatMap, mem_directions]
  constructor
  · rintro ⟨b, member, ⟨rfl, rfl⟩ | ⟨both, rfl, rfl⟩⟩
    · exact (needed_of_mem_pairUp member).1
    · exact (needed_of_mem_pairUp member).2 both
  · intro listed
    exact covers_of_mem listed (turns _ listed)

variable (sorted : needed.Pairwise fun a b => toLex a < toLex b)
include sorted

theorem pairwise_pairUp : (pairUp needed).Pairwise fun a b =>
    toLex (a.edgeIn, a.edgeOut) < toLex (b.edgeIn, b.edgeOut) :=
  List.pairwise_map.mpr (sorted.filter _)

/-- Expanded to the directions that they stand for, the bypasses name no pair twice. -/
theorem nodup_directions (turns : ∀ pair ∈ needed, pair.1 ≠ pair.2) :
    ((pairUp needed).flatMap Bypass.directions).Nodup := by
  refine List.nodup_flatMap.mpr ⟨fun b member => ?_, ?_⟩
  · have apart := turns _ (needed_of_mem_pairUp member).1
    unfold Bypass.directions
    split
    · simpa using fun same _ => apart same
    · exact List.nodup_singleton _
  · refine (pairwise_pairUp sorted).imp_of_mem fun {a b} first second lower pair left right => ?_
    -- A direction of both entries would make them equal, or one of them the other turned round.
    have swapped := not_swapped first second
    rw [mem_directions] at left right
    rcases left with ⟨into, out⟩ | ⟨-, into, out⟩ <;>
      rcases right with ⟨enters, leaves⟩ | ⟨-, enters, leaves⟩
    · exact absurd lower (by rw [into, out, enters, leaves]; exact lt_irrefl _)
    · exact swapped (by rw [into, out, enters, leaves])
    · exact swapped (by rw [into, out, enters, leaves])
    · exact absurd lower (by rw [into, out, enters, leaves]; exact lt_irrefl _)

end Bypasses

/-- A list in which no pair of edges comes twice, none turns back on one edge, and a pair comes in
both directions only if the edges can be driven both ways, makes a simulation that encodes it. -/
theorem encodes_ofNeeded {needed : List (Edge × Edge)}
    (sorted : needed.Pairwise fun a b => toLex (a.1.id, a.2.id) < toLex (b.1.id, b.2.id))
    (turns : ∀ pair ∈ needed, pair.1.id ≠ pair.2.id)
    (twoWay : ∀ pair ∈ needed, ∀ back ∈ needed, back.1.id = pair.2.id → back.2.id = pair.1.id →
      pair.1.bidirectional = true ∧ pair.2.bidirectional = true) :
    (ofNeeded needed).Encodes needed.toFinset := by
  have ids : (needed.map fun pair => (pair.1.id, pair.2.id)).Pairwise fun a b =>
      toLex a < toLex b := List.pairwise_map.mpr sorted
  have apart : ∀ pair ∈ needed.map (fun pair => (pair.1.id, pair.2.id)), pair.1 ≠ pair.2 :=
    List.forall_mem_map.mpr turns
  have different : needed.Nodup := by
    refine sorted.imp ?_
    rintro a _ lower rfl
    exact lt_irrefl _ lower
  have bypassed : (needed.flatMap fun pair => [pair.1, pair.2]).eraseDups.toFinset =
      needed.toFinset.image Prod.fst ∪ needed.toFinset.image Prod.snd := by
    ext edge
    simp only [List.mem_toFinset, List.mem_eraseDups, List.mem_flatMap, List.mem_cons,
      List.not_mem_nil, or_false, Finset.mem_union, Finset.mem_image]
    grind
  constructor
  case ascending => exact pairwise_pairUp ids
  case single => exact fun a first b second => not_swapped first second
  case apart => exact nodup_directions ids apart
  case whole =>
    ext pair
    rw [List.mem_toFinset]
    refine (mem_flatMap_directions apart).trans ?_
    simp
  case bothWays =>
    intro b member both
    obtain ⟨forth, back⟩ := needed_of_mem_pairUp member
    obtain ⟨pair, listed, named⟩ := List.mem_map.mp forth
    obtain ⟨turned, there, other⟩ := List.mem_map.mp (back both)
    obtain ⟨into, out⟩ := Prod.mk.inj named
    obtain ⟨enters, leaves⟩ := Prod.mk.inj other
    exact ⟨pair, List.mem_toFinset.mpr listed, named,
      twoWay pair listed turned there (enters.trans out.symm) (leaves.trans into.symm)⟩
  case shortcuts => exact (List.toFinset_card_of_nodup different).symm
  case countAdded =>
    rw [List.sum_toFinset _ different]
    exact List.foldr_map.symm
  case bypassedEdges =>
    rw [← bypassed, List.toFinset_card_of_nodup (nodup_eraseDups _)]
    rfl
  case countRemoved =>
    rw [← bypassed, List.sum_toFinset _ (nodup_eraseDups _)]
    exact List.foldr_map.symm

end Simulation

namespace Graph

variable {g : Graph} {v hopLimit : Nat} {avoids : Nat → Bool} {pair : Edge × Edge}

/-- Edges that lead over the vertex in both directions can be driven both ways. -/
theorem Passage.bidirectional {edgeIn edgeOut : Edge} {u w x y : Nat}
    (forth : g.Passage v edgeIn edgeOut u w) (back : g.Passage v edgeOut edgeIn x y) :
    edgeIn.bidirectional = true ∧ edgeOut.bidirectional = true := by
  obtain ⟨⟨into, out, start, goal, -⟩, -, -⟩ := forth
  obtain ⟨⟨enters, leaves, -, -, -⟩, -, -⟩ := back
  have ends := into.2.2.other_end.symm.trans leaves.2.2.other
  have others := out.2.2.other.symm.trans enters.2.2.other_end
  rw [← ends] at leaves
  rw [← others] at enters
  exact ⟨into.2.2.bidirectional leaves.2.2 start, out.2.2.bidirectional enters.2.2 goal.symm⟩

theorem Passage.leadsOver {edgeIn edgeOut : Edge} {u w : Nat}
    (passage : g.Passage v edgeIn edgeOut u w) : g.LeadsOver v (edgeIn, edgeOut) := by
  rw [LeadsOver, passage.into.2.2.other_end, passage.out.2.2.other]
  exact passage

theorem mem_passages_iff (valid : g.WellFormed) (known : v < g.vertexCount) :
    pair ∈ g.passages v ↔ g.LeadsOver v pair :=
  ⟨passage_of_mem valid known, fun leads => leads.mem_passages valid⟩

/-- Passages come in the order of their edges. -/
theorem pairwise_passages (valid : g.WellFormed) (known : v < g.vertexCount) :
    (g.passages v).Pairwise fun a b => toLex (a.1.id, a.2.id) < toLex (b.1.id, b.2.id) := by
  have sorted := pairwise_liveEdges valid known
  refine List.Pairwise.filter _ (List.pairwise_flatMap.mpr ⟨fun edgeIn _ => ?_, ?_⟩)
  · refine List.pairwise_map.mpr (((sorted.filter _).filter _).imp fun lower => ?_)
    exact Prod.Lex.toLex_lt_toLex.mpr (.inr ⟨rfl, lower⟩)
  · refine ((sorted.filter _).filter _).imp fun lower first source second goal => ?_
    obtain ⟨_, -, rfl⟩ := List.mem_map.mp source
    obtain ⟨_, -, rfl⟩ := List.mem_map.mp goal
    exact Prod.Lex.toLex_lt_toLex.mpr (.inl lower)

theorem needsShortcut_eq_ok {answer : Bool} : g.needsShortcut hopLimit v avoids pair = .ok answer ↔
    pair.1.weight + pair.2.weight < 2 ^ 64 ∧
      (g.pairQuery hopLimit v avoids pair).hasPathFrom (pair.1.other v) = .ok !answer := by
  constructor
  · intro success
    obtain ⟨limit, added, success⟩ := bind_eq_ok.mp success
    obtain ⟨found, searched, answered⟩ := bind_eq_ok.mp success
    obtain ⟨rfl, room⟩ := addWithin_eq_ok_iff.mp added
    obtain rfl := pure_eq_ok.mp answered
    exact ⟨room, by rw [Bool.not_not]; exact searched⟩
  · rintro ⟨room, searched⟩
    refine bind_eq_ok.mpr ⟨_, addWithin_eq_ok_iff.mpr ⟨rfl, room⟩, bind_eq_ok.mpr ⟨_, searched, ?_⟩⟩
    exact pure_eq_ok.mpr (Bool.not_not answer)

/-- The test of a pair gives an answer if its sums fit. -/
theorem exists_needsShortcut (fits : g.Fits hopLimit v avoids) (leads : g.LeadsOver v pair) :
    ∃ answer, g.needsShortcut hopLimit v avoids pair = .ok answer := by
  obtain ⟨room, within⟩ := fits pair leads
  obtain ⟨found, searched, -⟩ := (Witness.Query.hasPathFrom_returns
    (g.pairQuery hopLimit v avoids pair) (pair.1.other v)).exists_ok fun failure cause => cause ▸ within
  exact ⟨!found, needsShortcut_eq_ok.mpr ⟨room, by rw [Bool.not_not]; exact searched⟩⟩

/-- What a simulation gives encodes the pairs that need a shortcut. -/
theorem encodes_of_simulateAvoiding (valid : g.WellFormed) (known : v < g.vertexCount)
    {simulation : Simulation} (success : g.simulateAvoiding hopLimit v avoids = .ok simulation) :
    ∃ needed, (∀ pair, pair ∈ needed ↔ g.Needs hopLimit v avoids pair) ∧
      simulation.Encodes needed := by
  obtain ⟨kept, passed, rfl⟩ := map_eq_ok.mp success
  obtain ⟨sound, complete⟩ := Simulation.mem_keep passed
  have passage : ∀ pair ∈ kept, g.LeadsOver v pair := fun pair member =>
    (mem_passages_iff valid known).mp (sound pair member).1
  refine ⟨kept.toFinset, fun pair => ?_, Simulation.encodes_ofNeeded ?_ ?_ ?_⟩
  · rw [List.mem_toFinset]
    constructor
    · intro member
      exact ⟨passage pair member, (needsShortcut_eq_ok.mp (sound pair member).2).2⟩
    · rintro ⟨leads, searched⟩
      refine (complete pair ((mem_passages_iff valid known).mpr leads)).resolve_right fun tested => ?_
      rw [(needsShortcut_eq_ok.mp tested).2] at searched
      cases searched
  · rw [← (Simulation.keep_eq_ok.mp passed).2]
    exact (pairwise_passages valid known).filter _
  · exact fun pair member => (passage pair member).edge_apart valid
  · intro pair member back there into out
    have forth := passage pair member
    have turned : g.Passage v back.1 back.2 _ _ := passage back there
    rw [valid.eq_of_id turned.into.1 forth.out.1 into,
      valid.eq_of_id turned.out.1 forth.into.1 out] at turned
    exact forth.bidirectional turned

/-- A simulation has a result if its sums fit, and only then. -/
theorem fits_iff (valid : g.WellFormed) (known : v < g.vertexCount) :
    g.Fits hopLimit v avoids ↔ ∃ simulation, g.simulateAvoiding hopLimit v avoids = .ok simulation := by
  constructor
  · intro fits
    have tests : ∀ pair ∈ g.passages v, ∃ answer,
        g.needsShortcut hopLimit v avoids pair = .ok answer :=
      fun pair member => exists_needsShortcut fits ((mem_passages_iff valid known).mp member)
    exact ⟨_, map_eq_ok.mpr ⟨_, Simulation.keep_eq_ok.mpr ⟨tests, rfl⟩, rfl⟩⟩
  · rintro ⟨simulation, success⟩ pair leads
    obtain ⟨kept, passed, -⟩ := map_eq_ok.mp success
    obtain ⟨answer, tested⟩ :=
      (Simulation.keep_eq_ok.mp passed).1 pair ((mem_passages_iff valid known).mpr leads)
    obtain ⟨room, searched⟩ := needsShortcut_eq_ok.mp tested
    exact ⟨room, by rw [searched]; exact fun failure => by cases failure⟩

theorem reports_simulateAvoiding (valid : g.WellFormed) (known : v < g.vertexCount)
    (hopLimit : Nat) (avoids : Nat → Bool) :
    g.Reports hopLimit v avoids (g.simulateAvoiding hopLimit v avoids) := by
  constructor
  · intro fits
    obtain ⟨simulation, success⟩ := (fits_iff valid known).mp fits
    obtain ⟨needed, members, encodes⟩ := encodes_of_simulateAvoiding valid known success
    exact ⟨simulation, needed, success, members, encodes⟩
  · intro full
    have returns := g.simulateAvoiding_returns hopLimit v avoids
    cases outcome : g.simulateAvoiding hopLimit v avoids with
    | ok simulation => exact (full ((fits_iff valid known).mpr ⟨simulation, outcome⟩)).elim
    | error failure =>
      rw [outcome] at returns
      exact congrArg Except.error returns

/-- A simulation encodes exactly the pairs of edges over the vertex for which the search finds no
witness, whether the vertex is contracted on its own or with others. Its entries are in strictly
ascending order, and they and its counts name no direction and no edge twice. It fails only when a
sum of weights has no room in its width. -/
theorem simulate_encodes (reachable : g.Reachable) (known : v < g.vertexCount) (hopLimit : Nat) :
    g.Reports hopLimit v (· == v) (g.simulate hopLimit v) ∧
      ∀ round, g.Reports hopLimit v (fun other => other == v || round.contains other)
        (g.simulateInRound hopLimit v round) :=
  ⟨reports_simulateAvoiding reachable.wellFormed known hopLimit _,
    fun _ => reports_simulateAvoiding reachable.wellFormed known hopLimit _⟩

/-- Two two-way roads meet a one-way road at a junction, and a bypass leads from the start of that
road to the end of the second. One shortcut is needed both ways, and one of the other two has a
witness. -/
theorem simulate_encodes_junction : ∃ g simulation needed, ofExtract ⟨List.replicate 4 ⟨0, 0⟩,
      [⟨0, 1, 3, true⟩, ⟨1, 2, 4, true⟩, ⟨3, 1, 1, false⟩, ⟨3, 2, 5, false⟩]⟩ = .ok g ∧
    g.simulate 4 1 = .ok simulation ∧ simulation.bypasses = [⟨0, 1, true⟩, ⟨2, 0, false⟩] ∧
    (∀ pair, pair ∈ needed ↔ g.Needs 4 1 (· == 1) pair) ∧ needed.card = 3 ∧
    simulation.Encodes needed := by
  have computed : (do
      let g ← ofExtract ⟨List.replicate 4 ⟨0, 0⟩,
        [⟨0, 1, 3, true⟩, ⟨1, 2, 4, true⟩, ⟨3, 1, 1, false⟩, ⟨3, 2, 5, false⟩]⟩
      let simulation ← g.simulate 4 1
      return (g.vertexCount, simulation)).toOption =
      some (4, ⟨3, 3, [⟨0, 1, true⟩, ⟨2, 0, false⟩], 6, 3⟩) := by
    decide +kernel
  obtain ⟨g, extracted, computed⟩ := bind_eq_ok.mp (toOption_eq_some.mp computed)
  obtain ⟨found, simulated, computed⟩ := bind_eq_ok.mp computed
  obtain ⟨size, rfl⟩ := Prod.mk.inj (pure_eq_ok.mp computed)
  have reachable := reachable_ofExtract extracted
  have known : 1 < g.vertexCount := by omega
  have fits := (fits_iff reachable.wellFormed known).mpr ⟨_, simulated⟩
  obtain ⟨simulation, needed, same, members, encodes⟩ :=
    (simulate_encodes reachable known 4).1.1 fits
  rw [simulated] at same
  cases same
  exact ⟨g, _, needed, extracted, simulated, rfl, members, encodes.shortcuts.symm, encodes⟩

end Graph

end RoadHierarchy
