import RoadHierarchy.Proofs.Contraction.Discovery
import RoadHierarchy.Proofs.Contraction.Distance
import RoadHierarchy.Proofs.Contraction.Encoding
import RoadHierarchy.Proofs.Contraction.Foundation
import RoadHierarchy.Proofs.Contraction.Query

/-! # When shortcuts are longer than the distance

A search for a witness stays clear of the whole round. When the hop limit is no obstacle, it finds
every other way that is short enough, so a shortcut is made only if it is shorter than each way
around the round. A way over a member may be shorter still: over a lighter parallel edge, over a
detour to the contracted vertex, or over another member. Then, and only then, the shortcut is longer
than the distance between its ends.
-/

namespace RoadHierarchy

namespace Network

variable {net : Network} {s t limit : Nat}

/-- A route stays with vertices of a kind, or it comes by another one. -/
theorem Reaches.within_or_meets (kind : Nat → Prop) (reaches : net.Reaches s t limit)
    (start : kind s) : (net.within kind).Reaches s t limit ∨
      ∃ m first second, ¬ kind m ∧ net.Reaches s m first ∧ net.Reaches m t second ∧
        first + second ≤ limit := by
  obtain ⟨edges, route, length⟩ := reaches
  induction route generalizing limit with
  | nil v => exact .inl (.refl _ v limit)
  | @cons e s u t rest step tail ih =>
    rw [Edge.totalWeight_cons] at length
    by_cases stays : kind u
    · rcases ih stays le_rfl with inside | ⟨m, first, second, other, before, after, short⟩
      · exact .inl ((Reaches.head ⟨step, start, stays⟩ inside).mono length)
      · exact .inr ⟨m, _, second, other, .head step before, after, by omega⟩
    · exact .inr ⟨u, _, _, stays, .single step, ⟨rest, tail, le_rfl⟩, length⟩

theorem distance_le_add (net : Network) (s m t : Nat) :
    net.distance s t ≤ net.distance s m + net.distance m t :=
  le_distance_add fun _ _ before after => distance_le_iff.mpr (before.trans after)

end Network

namespace Graph

/-- No way around the members, over vertices that have not been contracted, is as short as the
edge. -/
def Unmatched (g : Graph) (members : List Nat) (e : Edge) : Prop :=
  ∀ u w, e.Drives u w → ¬ (g.core.within (· ∉ members)).Reaches u w e.weight

/-- The bypasses stand only for passages that are shorter than all ways around the members. -/
def Thrifty (g : Graph) (v : Nat) (members : List Nat) (bypasses : List Bypass) : Prop :=
  ∀ b ∈ bypasses, ∀ edgeIn edgeOut u w, g.Passage v edgeIn edgeOut u w →
    b.Covers edgeIn.id edgeOut.id →
      ¬ (g.core.within (· ∉ members)).Reaches u w (edgeIn.weight + edgeOut.weight)

/-- Every edge was there when the round began, or is shorter than all ways around the members. -/
def Spares (g : Graph) (members : List Nat) (m : Graph) : Prop :=
  ∀ e ∈ m.edges, (∃ old ∈ g.edges, old.Ages e) ∨ g.Unmatched members e

variable {g m h : Graph} {v hopLimit number : Nat} {members : List Nat} {avoids : Nat → Bool}
  {e e' : Edge} {b : Bypass}

theorem Unmatched.ages (unmatched : g.Unmatched members e) (aged : e.Ages e') :
    g.Unmatched members e' := by
  intro u w drives
  rw [aged.weight]
  exact unmatched u w (aged.drives.mp drives)

/-- Without an effective hop limit, what needs a shortcut is shorter than all ways that are not
avoided. -/
theorem Needs.not_reaches {pair : Edge × Edge} (needs : g.Needs hopLimit v avoids pair)
    (valid : g.WellFormed) (wide : g.vertexCount ≤ hopLimit) :
    ¬ (g.core.within (avoids · = false)).Reaches (pair.1.other v) (pair.2.other v)
      (pair.1.weight + pair.2.weight) := by
  obtain ⟨leads, searched⟩ := needs
  have known := (leads.mem_vertices valid).1
  intro reaches
  have admissible : ((g.pairQuery hopLimit v avoids pair).admissible (pair.1.other v)).Reaches
      (pair.1.other v) (pair.2.other v) (pair.1.weight + pair.2.weight) :=
    reaches.of_subset fun e u w ⟨⟨step, _, goal⟩, _, clear⟩ => ⟨step, .inr ⟨clear, goal⟩⟩
  have given := Witness.Query.mayAnswer_hasPathFrom (q := g.pairQuery hopLimit v avoids pair)
    valid known
  rw [searched] at given
  cases Witness.Query.found_of_reaches valid known leads.apart wide given admissible

/-- A simulation has a bypass only for what needs a shortcut. -/
theorem needs_of_covers (valid : g.WellFormed) (known : v < g.vertexCount)
    {simulation : Simulation} (success : g.simulateAvoiding hopLimit v avoids = .ok simulation)
    (member : b ∈ simulation.bypasses) {edgeIn edgeOut : Edge} {u w : Nat}
    (passage : g.Passage v edgeIn edgeOut u w) (covers : b.Covers edgeIn.id edgeOut.id) :
    g.Needs hopLimit v avoids (edgeIn, edgeOut) := by
  obtain ⟨needed, members, encodes⟩ := encodes_of_simulateAvoiding valid known success
  have listed : (edgeIn.id, edgeOut.id) ∈ (simulation.bypasses.flatMap Bypass.directions).toFinset :=
    List.mem_toFinset.mpr (List.mem_flatMap.mpr ⟨b, member, Simulation.mem_directions.mpr covers⟩)
  rw [encodes.whole] at listed
  obtain ⟨⟨first, second⟩, inside, ids⟩ := Finset.mem_image.mp listed
  have needs := (members _).mp inside
  obtain ⟨into, out⟩ := Prod.mk.inj ids
  obtain rfl := valid.eq_of_id needs.1.into.1 passage.into.1 into
  obtain rfl := valid.eq_of_id needs.1.out.1 passage.out.1 out
  exact needs

/-- Without an effective hop limit, the simulation of a member is thrifty. -/
theorem thrifty_of_simulateInRound (valid : g.WellFormed) (known : v < g.vertexCount)
    (inRound : v ∈ members) (wide : g.vertexCount ≤ hopLimit) {simulation : Simulation}
    (success : g.simulateInRound hopLimit v members = .ok simulation) :
    g.Thrifty v members simulation.bypasses := by
  intro b member edgeIn edgeOut u w passage covers reaches
  have needs := needs_of_covers valid known success member passage covers
  refine needs.not_reaches valid wide ?_
  rw [passage.into.2.2.other_end, passage.out.2.2.other]
  have clear : ∀ x, x ∉ members → (x == v || members.contains x) = false := by
    intro x outside
    have apart : x ≠ v := fun same => outside (same ▸ inRound)
    simp [apart, outside]
  exact reaches.of_subset fun e x y ⟨step, start, goal⟩ => ⟨step, clear x start, clear y goal⟩

/-- Priorities and depths do not matter for what a round may spare. -/
theorem Thrifty.tuned {bypasses : List Bypass} (thrifty : g.Thrifty v members bypasses)
    (tuned : g.Tuned h) : h.Thrifty v members bypasses := by
  intro b member edgeIn edgeOut u w passage covers
  rw [tuned.core]
  exact thrifty b member edgeIn edgeOut u w (tuned.symm.passage passage) covers

namespace Spares

theorem start (g : Graph) (members : List Nat) : g.Spares members g :=
  fun e member => .inl ⟨e, member, .refl e⟩

theorem of_edges_eq (spares : g.Spares members m) (edges : h.edges = m.edges) :
    g.Spares members h := by
  unfold Spares
  rw [edges]
  exact spares

/-- In which order the members are listed does not matter. -/
theorem perm {others : List Nat} (spares : g.Spares members m) (same : members.Perm others) :
    g.Spares others m := by
  unfold Spares Unmatched at *
  simpa only [same.mem_iff] using spares

theorem of_ages (spares : g.Spares members m) (member : e ∈ m.edges) (aged : e.Ages e') :
    (∃ old ∈ g.edges, old.Ages e') ∨ g.Unmatched members e' := by
  rcases spares e member with ⟨old, there, young⟩ | unmatched
  · exact .inl ⟨old, there, young.trans aged⟩
  · exact .inr (unmatched.ages aged)

end Spares

end Graph

namespace Hierarchy

open RoadHierarchy.Graph

variable {g : Graph} {round : Round} {h next last : Hierarchy} {v : Nat}

/-- A shortcut for a thrifty plan is shorter than all ways around the members. -/
theorem addShortcut_spares {bypasses : List Bypass} {bypass : Bypass} (valid : g.WellFormed)
    (sofar : Steps round.number round.members g h.graph) (inRound : v ∈ round.members)
    (plan : g.Plan v (· ∈ round.members) bypasses) (thrifty : g.Thrifty v round.members bypasses)
    (member : bypass ∈ bypasses) (spares : g.Spares round.members h.graph)
    (success : h.addShortcut round v bypass = .ok next) : g.Spares round.members next.graph := by
  have before := sofar.wellFormed valid
  obtain ⟨edgeIn, edgeOut, u, w, inId, outId, passage, back⟩ := plan.sound bypass member
  have crossing := sofar.crossing valid inRound passage.toCrossing
  obtain ⟨final, -⟩ := graph_of_addShortcut before crossing inId outId success
  rw [final]
  intro e present
  obtain ⟨i, found⟩ := mem_edges_iff.mp present
  rcases crossing.edge_cases before found with rfl | there | ⟨old, -, there, rfl⟩
  · refine .inr fun x y drives => ?_
    rcases crossing.drives_over.mp drives with ⟨rfl, rfl⟩ | ⟨both, rfl, rfl⟩
    · exact thrifty bypass member edgeIn edgeOut x y passage (.inl ⟨inId.symm, outId.symm⟩)
    · have turned := thrifty bypass member edgeOut edgeIn x y (back both)
        (.inr ⟨both, inId.symm, outId.symm⟩)
      rwa [Nat.add_comm] at turned
  · exact spares e (mem_edges_iff.mpr ⟨i, there⟩)
  · exact spares.of_ages (mem_edges_iff.mpr ⟨i, there⟩) ⟨rfl, fun _ => rfl⟩

theorem contract_spares {result : Nat × Simulation} {above : List Nat} (valid : g.WellFormed)
    (sofar : Steps round.number round.members g h.graph) (inRound : result.1 ∈ round.members)
    (plan : g.Plan result.1 (· ∈ round.members) result.2.bypasses)
    (thrifty : g.Thrifty result.1 round.members result.2.bypasses)
    (spares : g.Spares round.members h.graph)
    (success : h.contract round result = .ok (above, next)) : g.Spares round.members next.graph := by
  obtain ⟨unprocessed, -⟩ := closes_of_contract (sofar.wellFormed valid) success
  obtain ⟨bridged, added, closed⟩ := bind_eq_ok.mp success
  obtain ⟨-, raised, tuned, marked⟩ := close_eq_ok closed
  obtain ⟨-, -, kept⟩ := foldlM_keeps (fun state : Hierarchy =>
      Steps round.number round.members g state.graph ∧ result.1 ∈ state.graph.unprocessed ∧
        g.Spares round.members state.graph)
    (fun bypass listed before after step ⟨steps, open_, kept⟩ => by
      have valid' := steps.wellFormed valid
      refine ⟨steps.tail (addShortcut_bridges valid steps inRound open_ plan listed step).1, ?_,
        addShortcut_spares valid steps inRound plan thrifty listed kept step⟩
      rw [Graph.unprocessed, (addShortcut_keeps valid' step).2]
      exact open_)
    added ⟨sofar, unprocessed, spares⟩
  obtain ⟨-, final⟩ := markProcessed_eq_ok.mp marked
  rw [final]
  exact kept.of_edges_eq tuned.edges

theorem contractAll_spares {results : List (Nat × Simulation)} {above : List Nat}
    (valid : g.WellFormed) (sofar : Steps round.number round.members g h.graph)
    (planned : ∀ result ∈ results, result.1 ∈ round.members ∧
      g.Plan result.1 (· ∈ round.members) result.2.bypasses ∧
        g.Thrifty result.1 round.members result.2.bypasses)
    (spares : g.Spares round.members h.graph)
    (success : contractAll round results h = .ok (above, last)) :
    g.Spares round.members last.graph := by
  induction results generalizing h above with
  | nil =>
    cases success
    exact spares
  | cons result rest ih =>
    obtain ⟨⟨lower, middle⟩, first, success⟩ := bind_eq_ok.mp success
    obtain ⟨⟨higher, final⟩, later, success⟩ := bind_eq_ok.mp success
    cases pure_eq_ok.mp success
    obtain ⟨⟨inRound, plan, thrifty⟩, others⟩ := List.forall_mem_cons.mp planned
    have here := contract_advances valid sofar inRound plan first
    exact ih (sofar.trans here.steps) others
      (contract_spares valid sofar inRound plan thrifty spares first) later

/-- A round that commits thrifty plans makes only shortcuts that are shorter than all ways around
its members. -/
theorem applyRound_spares {number : Nat} {results : List (Nat × Simulation)}
    {members touched : List Nat} (valid : h.graph.WellFormed) (listed : results.map (·.1) = members)
    (planned : ∀ result ∈ results, h.graph.Plan result.1 (· ∈ members) result.2.bypasses)
    (thrifty : ∀ result ∈ results, h.graph.Thrifty result.1 members result.2.bypasses)
    (success : h.applyRound number results = .ok (touched, next)) :
    h.graph.Spares members next.graph := by
  obtain ⟨⟨above, final⟩, contracted, success⟩ := bind_eq_ok.mp success
  cases pure_eq_ok.mp success
  have ordered := Agenda.perm_ofList (fun a b : Nat × Simulation => decide (a.1 ≤ b.1)) results
  have sorted := ordered.map (·.1)
  rw [listed] at sorted
  have plans : ∀ result ∈ Agenda.ofList (fun a b : Nat × Simulation => decide (a.1 ≤ b.1)) results,
      h.graph.Plan result.1 (· ∈ members) result.2.bypasses ∧
        h.graph.Thrifty result.1 members result.2.bypasses := fun result member =>
    ⟨planned result (ordered.mem_iff.mp member), thrifty result (ordered.mem_iff.mp member)⟩
  unfold Thrifty at plans
  simp only [← sorted.mem_iff] at plans
  exact (contractAll_spares valid .refl
    (fun result member => ⟨List.mem_map.mpr ⟨result, member, rfl⟩, plans result member⟩)
    (.start _ _) contracted).perm sorted

end Hierarchy

namespace Graph

/-- Where a shortcut comes from: the round of this number has put it over one of its members. Its
ends have outlasted the round, and when that began, no way around the members was as short. -/
structure Origin (g : Graph) (sets : List (List Nat)) (h : Graph) (e : Edge) (number via : Nat)
    (members : List Nat) (start : Graph) : Prop where
  round : sets[number]? = some members
  run : Run 0 g (sets.take number) start
  inRound : via ∈ members
  spans : h.Spans via e
  source : e.source ∈ start.unprocessed ∧ e.source ∉ members
  target : e.target ∈ start.unprocessed ∧ e.target ∉ members
  unmatched : start.Unmatched members e

variable {g m h next start : Graph} {sets : List (List Nat)} {members : List Nat}
  {number via v : Nat} {e e' : Edge}

theorem Spans.tuned (spans : g.Spans via e) (tuned : g.Tuned h) : h.Spans via e := by
  unfold Spans
  rw [tuned.live]
  exact spans

/-- Where nothing has been contracted, the core has the ways of the whole network. -/
theorem Plain.core_reaches_iff (plain : g.Plain) (valid : g.WellFormed) {u w limit : Nat} :
    g.core.Reaches u w limit ↔ g.live.Reaches u w limit :=
  ⟨fun reaches => reaches.of_subset fun _ _ _ step => step.1,
    fun reaches => reaches.of_subset fun _ _ _ => plain.core valid⟩

namespace Origin

theorem round?_eq (origin : g.Origin sets h e number via members start) (valid : g.WellFormed)
    (run : Run 0 g sets h) (member : v ∈ members) : h.round? v = some number := by
  rw [(run.round?_of_mem valid origin.round member).2, Nat.zero_add]

theorem ends (origin : g.Origin sets h e number via members start) {u w : Nat}
    (drives : e.Drives u w) : (u ∈ start.unprocessed ∧ u ∉ members) ∧
      (w ∈ start.unprocessed ∧ w ∉ members) := by
  rcases drives with ⟨rfl, rfl⟩ | ⟨-, rfl, rfl⟩
  · exact ⟨origin.source, origin.target⟩
  · exact ⟨origin.target, origin.source⟩

/-- Priorities and depths do not matter. -/
theorem tuned (origin : g.Origin sets h e number via members start) (tuned : h.Tuned m) :
    g.Origin sets m e number via members start :=
  { origin with spans := origin.spans.tuned tuned }

/-- A later round leaves an edge its origin. -/
theorem later {others : List Nat} (origin : g.Origin sets h e number via members start)
    (valid : g.WellFormed) (run : Run 0 g sets h) (tuned : h.Tuned m)
    (contracts : Contracts sets.length others m next) (aged : e.Ages e') :
    g.Origin (sets ++ [others]) next e' number via members start := by
  have known := (List.getElem?_eq_some_iff.mp origin.round).1
  have after := run.wellFormed valid
  have closed : via ∉ m.unprocessed := by
    have given := origin.round?_eq valid run origin.inRound
    rw [tuned.unprocessed, ← after.round?_eq_none_iff (origin.spans.mem_vertices after).1, given]
    exact Option.some_ne_none number
  constructor
  case round => rw [List.getElem?_append_left known, origin.round]
  case run => rw [List.take_append_of_le_length known.le]; exact origin.run
  case inRound => exact origin.inRound
  case spans =>
    exact (origin.spans.tuned tuned).contracts (tuned.wellFormed after) contracts closed aged
  case source => rw [aged.source]; exact origin.source
  case target => rw [aged.target]; exact origin.target
  case unmatched => exact origin.unmatched.ages aged

/-- A new shortcut has its origin in the round that has just been. -/
theorem of_round (valid : m.WellFormed) (run : Run 0 g sets m)
    (contracts : Contracts sets.length members m next) (spares : m.Spares members next)
    (member : e ∈ next.edges) (fresh : ¬ ∃ old ∈ m.edges, old.Ages e) :
    ∃ via, g.Origin (sets ++ [members]) next e sets.length via members m := by
  obtain ⟨source, target, via, inRound, spans, -⟩ := contracts.exists_passage valid member fresh
  refine ⟨via, List.getElem?_concat_length, ?_, inRound, spans, source, target,
    (spares e member).resolve_left fresh⟩
  rwa [List.take_left]

/-- A way that is shorter than the shortcut leads over a member. -/
theorem le_distance (origin : g.Origin sets h e number via members start) (valid : g.WellFormed)
    (plain : g.Plain) {u w : Nat} (drives : e.Drives u w)
    (least : ∀ m ∈ members, e.weight ≤ g.live.distance u m + g.live.distance m w) :
    e.weight ≤ g.live.distance u w := by
  obtain ⟨⟨startOpen, startStays⟩, goalOpen, -⟩ := origin.ends drives
  have before : ∀ {x y limit}, start.core.Reaches x y limit → g.live.distance x y ≤ limit := by
    intro x y limit reaches
    rw [← (origin.run.preserves valid).distance_live]
    exact Network.distance_le_iff.mpr (reaches.of_subset fun _ _ _ step => step.1)
  refine Network.le_distance fun limit reaches => ?_
  rw [← plain.core_reaches_iff valid, ← origin.run.core_reaches_iff valid startOpen goalOpen]
    at reaches
  rcases reaches.within_or_meets (· ∉ members) startStays with
    around | ⟨m, first, second, inRound, into, out, short⟩
  · by_contra shorter
    have within : limit ≤ e.weight := by exact_mod_cast (not_le.mp shorter).le
    exact origin.unmatched u w drives (around.mono within)
  · refine (least m (not_not.mp inRound)).trans ((add_le_add (before into) (before out)).trans ?_)
    exact_mod_cast short

section Finished

variable (origin : g.Origin sets h e number via members start) (valid : g.WellFormed)
  (plain : g.Plain) (run : Run 0 g sets h)
include origin valid plain run

/-- The vertices that are given later numbers outlast the round. -/
theorem outlasts_of_above (known : v < g.vertexCount) (above : h.Above number v) :
    v ∈ start.unprocessed ∧ v ∉ members := by
  have outside : v ∉ members := fun inside =>
    lt_irrefl number (above number (origin.round?_eq valid run inside))
  refine ⟨?_, outside⟩
  refine (List.mem_append.mp (origin.run.unprocessed.mem_iff.mp
    (plain.mem_unprocessed valid known))).resolve_left fun early => ?_
  obtain ⟨others, listed, inside⟩ := List.mem_flatten.mp early
  obtain ⟨i, found⟩ := List.mem_iff_getElem?.mp listed
  rw [List.getElem?_take] at found
  split at found
  · have later := above _ (run.round?_of_mem valid found inside).2
    omega
  · cases found

/-- No way over vertices that are contracted later is as short as the shortcut. -/
theorem not_reaches {u w : Nat} (drives : e.Drives u w) :
    ¬ (g.live.within (h.Above number)).Reaches u w e.weight := by
  intro reaches
  refine origin.unmatched u w drives (reaches.of_covers fun edge x y ⟨step, left, right⟩ => ?_)
  obtain ⟨leftKnown, rightKnown⟩ := valid.drives_lt step.1 step.2.2
  obtain ⟨leftOpen, leftStays⟩ := origin.outlasts_of_above valid plain run leftKnown left
  obtain ⟨rightOpen, rightStays⟩ := origin.outlasts_of_above valid plain run rightKnown right
  obtain ⟨other, there, light⟩ := (origin.run.preserves valid).successor step
  have inside := core_of_mem_unprocessed (origin.run.wellFormed valid) there leftOpen rightOpen
  exact (Network.Reaches.single ⟨inside, leftStays, rightStays⟩).mono light

end Finished

end Origin

end Graph

namespace Strategy

open RoadHierarchy.Hierarchy RoadHierarchy.Graph

variable {s : Settings} {g : Graph} {h next : Hierarchy} {strategy : Strategy} {number : Nat}
  {members : List Nat} {sets : List (List Nat)}

/-- Without an effective hop limit, a round makes only shortcuts that are shorter than all ways
around its members. -/
theorem Commits.spares (commits : strategy.Commits s number members h next)
    (positive : 0 < s.kNeighborhood) (valid : h.graph.WellFormed)
    (wide : h.graph.vertexCount ≤ s.searchSpaceHopLimit) :
    ∃ start, h.graph.Tuned start ∧ Contracts number members start next.graph ∧
      start.Spares members next.graph := by
  obtain ⟨start, results, touched, committing⟩ := commits.exists_committing positive valid
  have tuned := committing.reranked.toTuned
  refine ⟨start.graph, tuned, committing.contracts valid, applyRound_spares
    (committing.wellFormed valid) committing.listed (committing.planned valid)
    (fun result member => ?_) committing.applied⟩
  have inRound : result.1 ∈ members := by
    rw [← committing.listed]
    exact List.mem_map.mpr ⟨result, member, rfl⟩
  exact (thrifty_of_simulateInRound valid (committing.known _ inRound) inRound wide
    (committing.genuine result member)).tuned tuned

/-- Without an effective hop limit, every shortcut has its origin in a round that found no way around
its members that is as short. -/
theorem Stage.exists_origin (stage : strategy.Stage s g sets h) (valid : g.WellFormed)
    (plain : g.Plain) (wide : g.vertexCount ≤ s.searchSpaceHopLimit) :
    ∀ e ∈ h.graph.edges, e.isShortcut = true →
      ∃ number via members start, g.Origin sets h.graph e number via members start := by
  induction stage with
  | opening _ begins =>
    intro e member short
    rw [begins.reranked.edges] at member
    exact (plain.not_isShortcut member short).elim
  | @round h next sets members stage performs ih =>
    have positive := (Settings.positive_of_validate stage.usable).2.1
    have run := stage.run valid
    have before := run.wellFormed valid
    have size : h.graph.vertexCount = g.vertexCount := (run.preserves valid).grows.vertexCount
    obtain ⟨committed, commits, reranked⟩ := performs.commits
    obtain ⟨start, tuned, contracts, spares⟩ := commits.spares positive before (size ▸ wide)
    have ready := run.append (.done tuned)
    rw [List.append_nil] at ready
    intro e member short
    rw [reranked.edges] at member
    by_cases old : ∃ old ∈ start.edges, old.Ages e
    · obtain ⟨old, there, aged⟩ := old
      rw [tuned.edges] at there
      obtain ⟨number, via, earlier, past, origin⟩ := ih old there (aged.isShortcut ▸ short)
      exact ⟨number, via, earlier, past,
        (origin.later valid run tuned contracts aged).tuned reranked.toTuned⟩
    · obtain ⟨via, origin⟩ := Origin.of_round (tuned.wellFormed before) ready contracts spares member
        old
      exact ⟨sets.length, via, members, start, origin.tuned reranked.toTuned⟩

end Strategy

namespace Hierarchy

open RoadHierarchy.Graph

variable {s : Settings} {g : Graph} {h : Hierarchy} {extract : Extract}

/-- Without an effective hop limit, a shortcut over a vertex is as long as the distance between its
ends, unless a vertex contracted in the same round lies on a shorter way. And it is shorter than all
ways over vertices that have been contracted later. -/
theorem shortcut_weight_eq_distance_iff (extracted : Graph.ofExtract extract = .ok g)
    (built : BuiltFrom s g h) (wide : g.vertexCount ≤ s.searchSpaceHopLimit) {e : Edge}
    (member : e ∈ h.graph.edges) (short : e.isShortcut = true) :
    ∃ via number, h.graph.Spans via e ∧ h.graph.round? via = some number ∧
      ∀ u w, e.Drives u w →
        g.live.distance u w ≤ e.weight ∧
        (g.live.distance u w = e.weight ↔ ∀ m, h.graph.round? m = some number →
          e.weight ≤ g.live.distance u m + g.live.distance m w) ∧
        ¬ (g.live.within (h.graph.Above number)).Reaches u w e.weight := by
  have reachable := reachable_ofExtract extracted
  have valid := reachable.wellFormed
  have plain := plain_ofExtract extracted
  obtain ⟨strategy, sets, last, stage, complete, rfl⟩ := built.stage valid
  have run := stage.run valid
  obtain ⟨number, via, members, start, origin⟩ :=
    stage.exists_origin valid plain wide e member short
  refine ⟨via, number, origin.spans, origin.round?_eq valid run origin.inRound,
    fun u w drives => ?_⟩
  obtain ⟨⟨startOpen, startStays⟩, goalOpen, goalStays⟩ := origin.ends drives
  have bound : g.live.distance u w ≤ e.weight := by
    obtain ⟨i, found⟩ := mem_edges_iff.mp member
    rw [← (run.preserves valid).distance_everLive]
    exact Network.distance_le_iff.mpr (.single ⟨i, found, fun old before =>
      (plain.edges old (mem_edges_iff.mpr ⟨i, before⟩)).1, drives⟩)
  refine ⟨bound, ⟨fun equal m _ => ?_, fun least => ?_⟩, ?_⟩
  · rw [← equal]
    exact g.live.distance_le_add u m w
  · refine bound.antisymm (origin.le_distance valid plain drives fun m inRound => ?_)
    exact least m (origin.round?_eq valid run inRound)
  · exact origin.not_reaches valid plain run drives

/-- A road of length ten, with a detour of length two beside it, is bypassed before the detour is: the
shortcut is longer than the distance, but there is no way over the vertices that are left. -/
theorem shortcut_weight_eq_distance_iff_detour : ∃ g h, ofExtract ⟨List.replicate 4 ⟨0, 0⟩,
      [⟨0, 1, 10, false⟩, ⟨0, 3, 1, false⟩, ⟨3, 1, 1, false⟩, ⟨1, 2, 1, false⟩]⟩ = .ok g ∧
    BuiltFrom {} g h ∧
    h.graph.edges[4]? = some ⟨4, 0, 2, 11, 2, false, some (0, 3), true⟩ ∧
    ∃ via number, h.graph.round? via = some number ∧ g.live.distance 0 2 ≤ 11 ∧
      ¬ (g.live.within (h.graph.Above number)).Reaches 0 2 11 := by
  have computed : (do
      let g ← ofExtract ⟨List.replicate 4 ⟨0, 0⟩,
        [⟨0, 1, 10, false⟩, ⟨0, 3, 1, false⟩, ⟨3, 1, 1, false⟩, ⟨1, 2, 1, false⟩]⟩
      let h ← buildInOrder {} [1, 3, 0, 2] g
      return (g.vertexCount, h.graph.edges[4]?)).toOption =
      some (4, some ⟨4, 0, 2, 11, 2, false, some (0, 3), true⟩) := by
    decide +kernel
  obtain ⟨g, extracted, computed⟩ := bind_eq_ok.mp (toOption_eq_some.mp computed)
  obtain ⟨h, built, computed⟩ := bind_eq_ok.mp computed
  obtain ⟨size, made⟩ := Prod.mk.inj (pure_eq_ok.mp computed)
  have whole : BuiltFrom {} g h := .inr ⟨[1, 3, 0, 2], built⟩
  have wide : g.vertexCount ≤ 5 := by omega
  obtain ⟨via, number, -, given, ways⟩ := shortcut_weight_eq_distance_iff extracted whole wide
    (mem_edges_iff.mpr ⟨4, made⟩) rfl
  obtain ⟨bound, -, around⟩ := ways 0 2 (.inl ⟨rfl, rfl⟩)
  exact ⟨g, h, extracted, whole, made, via, number, given, bound, around⟩

/-- Two parallel roads lead to the vertex that is contracted first. Both are bypassed, also the one
that is longer than the distance needs it to be. -/
theorem shortcut_weight_ne_distance : ∃ g h, ofExtract ⟨List.replicate 3 ⟨0, 0⟩,
      [⟨0, 1, 1, false⟩, ⟨0, 1, 5, false⟩, ⟨1, 2, 1, false⟩]⟩ = .ok g ∧
    g.vertexCount ≤ ({} : Settings).searchSpaceHopLimit ∧
    buildInOrder {} [1, 0, 2] g = .ok h ∧
    h.graph.edges[4]? = some ⟨4, 0, 2, 6, 2, false, some (1, 2), false⟩ ∧
    g.live.distance 0 2 ≤ 2 := by
  have computed : (do
      let g ← ofExtract ⟨List.replicate 3 ⟨0, 0⟩,
        [⟨0, 1, 1, false⟩, ⟨0, 1, 5, false⟩, ⟨1, 2, 1, false⟩]⟩
      let h ← buildInOrder {} [1, 0, 2] g
      return (g.vertexCount, g.edges[0]?, g.edges[2]?, h.graph.edges[4]?)).toOption =
      some (3, some ⟨0, 0, 1, 1, 1, false, none, false⟩, some ⟨2, 1, 2, 1, 1, false, none, false⟩,
        some ⟨4, 0, 2, 6, 2, false, some (1, 2), false⟩) := by
    decide +kernel
  obtain ⟨g, extracted, computed⟩ := bind_eq_ok.mp (toOption_eq_some.mp computed)
  obtain ⟨h, built, computed⟩ := bind_eq_ok.mp computed
  simp only [pure_eq_ok, Prod.mk.injEq] at computed
  obtain ⟨size, first, second, made⟩ := computed
  have into : g.live ⟨0, 0, 1, 1, 1, false, none, false⟩ 0 1 :=
    ⟨mem_edges_iff.mpr ⟨0, first⟩, rfl, .inl ⟨rfl, rfl⟩⟩
  have out : g.live ⟨2, 1, 2, 1, 1, false, none, false⟩ 1 2 :=
    ⟨mem_edges_iff.mpr ⟨2, second⟩, rfl, .inl ⟨rfl, rfl⟩⟩
  refine ⟨g, h, extracted, ?_, built, made, ?_⟩
  · rw [size]
    decide
  · exact Network.distance_le_iff.mpr (.head into (.single out))

end Hierarchy

end RoadHierarchy
