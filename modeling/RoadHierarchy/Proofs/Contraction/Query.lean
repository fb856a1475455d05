import RoadHierarchy.Proofs.Contraction.Stages

/-! # Queries are exact

A query climbs from both ends: forwards from the start and backwards from the goal, over edges that
lead to later rounds only. Some vertex is met over a shortest way. The proof follows the run from
its first round on: a way in the core either avoids the members of the round, and then the next core
has one that is no longer, or it starts or ends at a member, and then its first or last edge is one
that a query may take.
-/

namespace RoadHierarchy

namespace Network

variable {net other : Network} {s m t : Nat}

/-- A bound on all routes through a vertex bounds the sum of the distances. -/
theorem le_distance_add {bound : ℕ∞} (longer : ∀ first second : Nat, net.Reaches s m first →
    other.Reaches m t second → bound ≤ (first + second : Nat)) :
    bound ≤ net.distance s m + other.distance m t := by
  cases left : net.distance s m with
  | top => simp
  | coe first =>
    cases right : other.distance m t with
    | top => simp
    | coe second =>
      exact_mod_cast longer first second (distance_le_iff.mp left.le) (distance_le_iff.mp right.le)

end Network

namespace Graph

/-- Climbing from both ends, a query meets at some vertex within this length. -/
def Meets (h : Graph) (s t limit : Nat) : Prop :=
  ∃ m first second, m < h.vertexCount ∧ h.upward.Reaches s m first ∧
    h.downward.Reaches m t second ∧ first + second ≤ limit

variable {g h : Graph} {u v w x number limit : Nat} {rounds : List (List Nat)}

namespace Meets

theorem here (known : u < h.vertexCount) (limit : Nat) : h.Meets u u limit :=
  ⟨u, 0, 0, known, .refl _ u 0, .refl _ u 0, Nat.zero_le limit⟩

theorem mono {less : Nat} (meets : h.Meets u w less) (bound : less ≤ limit) : h.Meets u w limit := by
  obtain ⟨m, first, second, known, up, down, short⟩ := meets
  exact ⟨m, first, second, known, up, down, short.trans bound⟩

/-- The query may start with an edge to a later round. -/
theorem climb {e : Edge} (step : h.live e u x) (below : h.Below u x) (meets : h.Meets x w limit) :
    h.Meets u w (e.weight + limit) := by
  obtain ⟨m, first, second, known, up, down, short⟩ := meets
  exact ⟨m, e.weight + first, second, known, .head ⟨step, below⟩ up, down, by omega⟩

/-- The query may end with an edge from a later round. -/
theorem descend {e : Edge} (step : h.live e x w) (below : h.Below w x) (meets : h.Meets u x limit) :
    h.Meets u w (limit + e.weight) := by
  obtain ⟨m, first, second, known, up, down, short⟩ := meets
  exact ⟨m, first, second + e.weight, known, up, down.trans (.single ⟨step, below⟩), by omega⟩

end Meets

section Round

variable {next : Graph} {members : List Nat} (valid : g.WellFormed)
  (contracts : Contracts number members g next) (rest : Run (number + 1) next rounds h)
include valid contracts rest

/-- The edges at a member of a round stay as they are for ever. -/
theorem live_of_member {e : Edge} (step : g.live e u w) (ends : u ∈ members ∨ w ∈ members) :
    h.live e u w := by
  have after := contracts.wellFormed valid
  have confined := (contracts.confined valid).trans (rest.confined after)
  have kept := contracts.steps.preserves valid (fun _ => True) fun _ _ => trivial
  have grows := kept.grows.trans (rest.preserves after).grows
  have gone := fun v => contracts.closes.mem_unprocessed (v := v) valid
  refine confined.live_of_outside grows step (ends.imp ?_ ?_)
  · exact fun member stays => ((gone u).mp stays).2 member
  · exact fun member stays => ((gone w).mp stays).2 member

/-- A member of a round is below every vertex that is left after it. -/
theorem below_of_member (complete : h.unprocessed = []) (unprocessed : v ∈ g.unprocessed)
    (member : v ∈ members) (stays : x ∈ next.unprocessed) : h.Below v x := by
  have known := (valid.mem_unprocessed.mp unprocessed).1
  have gone : v ∉ next.unprocessed := by
    rw [contracts.closes.mem_unprocessed valid]
    exact fun open_ => open_.2 member
  obtain ⟨late, later, given⟩ := rest.round?_of_unprocessed (contracts.wellFormed valid) complete stays
  refine ⟨number, late, ?_, given, later⟩
  have present := contracts.closes.vertexCount ▸ known
  rw [rest.round?_of_processed (contracts.wellFormed valid) present gone,
    contracts.closes.round? v known, if_pos member]

/-- What holds of the core after a round holds of the core before it: a way between vertices that
stay needs no member, and any other way loses an edge at a member on either side. -/
theorem meets_of_round (independent : g.Independent members) (complete : h.unprocessed = [])
    (later : ∀ u w limit, u ∈ next.unprocessed → w ∈ next.unprocessed →
      next.core.Reaches u w limit → h.Meets u w limit)
    (start : u ∈ g.unprocessed) (goal : w ∈ g.unprocessed) (reaches : g.core.Reaches u w limit) :
    h.Meets u w limit := by
  have stays := fun v => contracts.closes.mem_unprocessed (v := v) valid
  have size : h.vertexCount = g.vertexCount :=
    (rest.preserves (contracts.wellFormed valid)).grows.vertexCount.trans contracts.closes.vertexCount
  have below : ∀ v x, v ∈ g.unprocessed → v ∈ members → x ∈ next.unprocessed → h.Below v x :=
    fun v x => below_of_member valid contracts rest complete
  -- First for a goal that stays: only the first edge can leave a member.
  have climbing : ∀ u w limit, u ∈ g.unprocessed → w ∈ next.unprocessed →
      g.core.Reaches u w limit → h.Meets u w limit := by
    intro u w limit start goal reaches
    by_cases member : u ∈ members
    · have apart : u ≠ w := fun same => ((stays w).mp goal).2 (same ▸ member)
      obtain ⟨e, x, remaining, step, away, onward, short⟩ := reaches.first apart
      have outside : x ∉ members := fun other =>
        away (independent.apart step.1 member other).symm
      have open_ := (stays x).mpr ⟨(mem_unprocessed_of_core valid step).2, outside⟩
      have alive := live_of_member valid contracts rest step.1 (.inl member)
      have tail := (contracts.core_reaches_iff valid independent open_ goal).mpr onward
      exact ((later x w remaining open_ goal tail).climb alive
        (below u x start member open_)).mono short
    · have open_ := (stays u).mpr ⟨start, member⟩
      exact later u w limit open_ goal
        ((contracts.core_reaches_iff valid independent open_ goal).mpr reaches)
  by_cases member : w ∈ members
  · by_cases same : u = w
    · subst u
      exact .here (size ▸ (valid.mem_unprocessed.mp goal).1) limit
    · obtain ⟨e, x, remaining, before, step, away, short⟩ := reaches.last same
      have outside : x ∉ members := fun other => away (independent.apart step.1 other member)
      have open_ := (stays x).mpr ⟨(mem_unprocessed_of_core valid step).1, outside⟩
      have alive := live_of_member valid contracts rest step.1 (.inr member)
      exact ((climbing u x remaining start open_ before).descend alive
        (below w x goal member open_)).mono short
  · exact climbing u w limit start ((stays w).mpr ⟨goal, member⟩) reaches

end Round

/-- Every way in the core of a graph on its way to a hierarchy is matched by a query. -/
theorem Run.meets (run : Run number g rounds h) (valid : g.WellFormed)
    (complete : h.unprocessed = []) (start : u ∈ g.unprocessed) (goal : w ∈ g.unprocessed)
    (reaches : g.core.Reaches u w limit) : h.Meets u w limit := by
  induction run generalizing u w limit with
  | done tuned =>
    rw [← tuned.unprocessed, complete] at start
    cases start
  | round tuned independent contracts rest ih =>
    rw [← tuned.unprocessed] at start goal
    rw [← tuned.core] at reaches
    have before := tuned.wellFormed valid
    exact meets_of_round before contracts rest independent complete
      (fun _ _ _ => ih (contracts.wellFormed before) complete) start goal reaches

/-- Where nothing has been contracted, the core is the whole network. -/
theorem Plain.core (plain : g.Plain) (valid : g.WellFormed) {e : Edge} (step : g.live e u w) :
    g.core e u w := by
  obtain ⟨startKnown, goalKnown⟩ := valid.drives_lt step.1 step.2.2
  exact core_of_mem_unprocessed valid step (plain.mem_unprocessed valid startKnown)
    (plain.mem_unprocessed valid goalKnown)

end Graph

namespace Hierarchy

variable {s : Settings} {g : Graph} {h : Hierarchy} {extract : Extract}

/-- Queries on a hierarchy are exact: the least sum of a way up from the start and a way down to the
goal is the distance in the graph that the hierarchy was built from. -/
theorem query_eq_distance (extracted : Graph.ofExtract extract = .ok g) (built : BuiltFrom s g h)
    {start goal : Nat} (startKnown : start < g.vertexCount) (goalKnown : goal < g.vertexCount) :
    ⨅ m : Fin h.graph.vertexCount,
      h.graph.upward.distance start m + h.graph.downward.distance m goal =
        g.live.distance start goal := by
  have reachable := Graph.reachable_ofExtract extracted
  have plain := Graph.plain_ofExtract extracted
  have valid := reachable.wellFormed
  obtain ⟨rounds, run, complete⟩ := built.run valid
  refine le_antisymm (Network.le_distance fun limit reaches => ?_) (le_iInf fun m => ?_)
  · have within := reaches.of_subset fun e u w => plain.core valid
    obtain ⟨m, first, second, known, up, down, short⟩ := run.meets valid complete
      (plain.mem_unprocessed valid startKnown) (plain.mem_unprocessed valid goalKnown) within
    refine (iInf_le _ ⟨m, known⟩).trans ?_
    refine (add_le_add (Network.distance_le_iff.mpr up) (Network.distance_le_iff.mpr down)).trans ?_
    exact_mod_cast short
  · rw [← (run.preserves valid).distance_live]
    refine Network.le_distance_add fun first second up down => Network.distance_le_iff.mpr ?_
    exact (up.of_subset fun _ _ _ step => step.1).trans (down.of_subset fun _ _ _ step => step.1)

/-- A network with parallel roads, a loop, a one-way road and roads of no length: from the first
junction to the last, a query finds the distance. -/
theorem query_eq_distance_parallel : ∃ g h, Graph.ofExtract ⟨List.replicate 4 ⟨0, 0⟩,
      [⟨0, 1, 1, true⟩, ⟨1, 2, 3, true⟩, ⟨1, 2, 0, false⟩, ⟨2, 2, 0, true⟩, ⟨2, 3, 2, true⟩]⟩ = .ok g ∧
    BuiltFrom {} g h ∧ ⨅ m : Fin h.graph.vertexCount,
      h.graph.upward.distance 0 m + h.graph.downward.distance m 3 = g.live.distance 0 3 := by
  have computed : (do
      let g ← Graph.ofExtract ⟨List.replicate 4 ⟨0, 0⟩,
        [⟨0, 1, 1, true⟩, ⟨1, 2, 3, true⟩, ⟨1, 2, 0, false⟩, ⟨2, 2, 0, true⟩, ⟨2, 3, 2, true⟩]⟩
      let _ ← buildInOrder {} [1, 2, 0, 3] g
      return g.vertexCount).toOption = some 4 := by
    decide +kernel
  obtain ⟨g, extracted, computed⟩ := bind_eq_ok.mp (toOption_eq_some.mp computed)
  obtain ⟨h, built, computed⟩ := bind_eq_ok.mp computed
  have size : g.vertexCount = 4 := pure_eq_ok.mp computed
  have whole : BuiltFrom {} g h := .inr ⟨[1, 2, 0, 3], built⟩
  exact ⟨g, h, extracted, whole, query_eq_distance extracted whole (by omega) (by omega)⟩

end Hierarchy

end RoadHierarchy
