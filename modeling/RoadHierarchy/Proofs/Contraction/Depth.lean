import RoadHierarchy.Proofs.Contraction.Closing
import RoadHierarchy.Proofs.Contraction.Foundation

/-! # Depths are the longest descents

A vertex is raised above its neighbours in the rounds that contract them, and never again once it
has been contracted itself. By then all edges that lead down from it are there to stay. So its depth
is one more than the largest depth of a vertex right below it.
-/

namespace RoadHierarchy

namespace Graph

/-- The first vertex has been contracted, and the second one has not been contracted before that or
in the same round. -/
def Under (g : Graph) (u w : Nat) : Prop := ∃ low, g.round? u = some low ∧ g.Above low w

/-- The depths that a vertex has to have because of the vertices joined to it from below. -/
def footing (g : Graph) (w : Nat) : Set ℕ :=
  {d | ∃ u, g.Joins u w ∧ g.Under u w ∧ d = g.depth u + 1}

/-- As many rounds have been taken. No live edge joins two different vertices of one round, and
every depth is the least that the vertices below allow. -/
structure Levelled (number : Nat) (g : Graph) : Prop where
  early : ∀ v < g.vertexCount, ∀ round, g.round? v = some round → round < number
  apart : ∀ u w, g.Joins u w → u ≠ w →
    ∀ round, g.round? u = some round → g.round? w ≠ some round
  depth : ∀ w < g.vertexCount, IsGreatest (insert 0 (g.footing w)) (g.depth w)

variable {g h : Graph} {number u v w : Nat} {members closed met : List Nat} {sets : List (List Nat)}

theorem Contracting.depth_of_settled (contracting : Contracting number members closed met g h)
    (valid : g.WellFormed) (independent : g.Independent members) (known : v < g.vertexCount)
    (settled : ¬ (v ∈ g.unprocessed ∧ v ∉ members)) : h.depth v = g.depth v := by
  by_cases member : v ∈ members
  · exact contracting.depth_of_mem valid independent known member
  · rcases (contracting.isGreatest_depth valid independent known member).1 with kept | ⟨open_, -⟩
    · exact kept
    · exact (settled ⟨open_, member⟩).elim

/-- In a round, exactly its members come to be under vertices, and these are the vertices that are
left. -/
theorem under_iff (contracts : Contracts number members g h) (valid : g.WellFormed)
    (levelled : g.Levelled number) (start : u < g.vertexCount) (goal : w < g.vertexCount) :
    h.Under u w ↔ g.Under u w ∨ u ∈ members ∧ w ∈ g.unprocessed ∧ w ∉ members := by
  have rounds := contracts.closes.round?
  have before : ∀ v < g.vertexCount, v ∈ members → g.round? v = none := fun v known member =>
    (valid.round?_eq_none_iff known).mpr
      (contracts.closes.unprocessed.mem_iff.mpr (List.mem_append_left _ member))
  constructor
  · rintro ⟨low, given, above⟩
    rw [rounds u start] at given
    split at given
    · next member =>
      cases given
      have stays : w ∉ members := fun same =>
        Nat.lt_irrefl _ (above number (by rw [rounds w goal, if_pos same]))
      refine .inr ⟨member, ?_, stays⟩
      rw [← valid.round?_eq_none_iff goal]
      refine Option.eq_none_iff_forall_ne_some.mpr fun round early => ?_
      have late := above round (by rw [rounds w goal, if_neg stays, early])
      exact Nat.lt_asymm late (levelled.early w goal round early)
    · refine .inl ⟨low, given, fun round early => above round ?_⟩
      have stays : w ∉ members := fun member => by
        rw [before w goal member] at early
        cases early
      rw [rounds w goal, if_neg stays, early]
  · rintro (⟨low, given, above⟩ | ⟨member, open_, stays⟩)
    · have outside : u ∉ members := fun member => by
        rw [before u start member] at given
        cases given
      refine ⟨low, ?_, above.closes contracts.closes goal (levelled.early u start low given)⟩
      rw [rounds u start, if_neg outside, given]
    · refine ⟨number, by rw [rounds u start, if_pos member], ?_⟩
      exact above_of_mem_unprocessed valid contracts.closes open_ stays

namespace Levelled

theorem of_plain (plain : g.Plain) (flat : ∀ v ∈ g.vertices, v.depth = 0) (valid : g.WellFormed) :
    g.Levelled 0 := by
  have fresh : ∀ v < g.vertexCount, g.round? v = none := fun v known =>
    (valid.round?_eq_none_iff known).mpr (plain.mem_unprocessed valid known)
  refine ⟨fun v known round given => ?_, fun u w joins _ round given => ?_, fun w known => ?_⟩
  · rw [fresh v known] at given
    cases given
  · rw [fresh u (joins.lt valid).1] at given
    cases given
  · have zero : g.depth w = 0 := by
      rw [Graph.depth, vertex?_of_lt known, Array.getElem?_eq_getElem known]
      exact flat _ (Array.getElem_mem known)
    rw [zero]
    refine ⟨Set.mem_insert _ _, ?_⟩
    rintro d (rfl | ⟨u, joins, ⟨low, given, -⟩, -⟩)
    · exact Nat.le_refl 0
    · rw [fresh u (joins.lt valid).1] at given
      cases given

theorem of_reranked (levelled : g.Levelled number) (valid : g.WellFormed)
    (reranked : g.Reranked h) : h.Levelled number := by
  have joins : ∀ u w, h.Joins u w ↔ g.Joins u w := fun _ _ =>
    Joins.of_edges_eq reranked.edges
  have footing : ∀ w, h.footing w = g.footing w := by
    intro w
    ext d
    simp only [Graph.footing, Under, Above, Set.mem_ofPred_eq, joins, reranked.round?]
    refine exists_congr fun u => and_congr_right fun joined => and_congr_right fun _ => ?_
    rw [reranked.depth u (joined.lt valid).1]
  refine ⟨?_, ?_, ?_⟩
  · rw [reranked.vertexCount]
    simpa only [reranked.round?] using levelled.early
  · simpa only [joins, reranked.round?] using levelled.apart
  · intro w known
    rw [reranked.vertexCount] at known
    rw [footing, reranked.depth w known]
    exact levelled.depth w known

/-- What holds up a vertex after a round is what held it up before, and the members it is joined to
if it is left. -/
theorem footing_eq (levelled : g.Levelled number) (valid : g.WellFormed)
    (independent : g.Independent members) (contracts : Contracts number members g h)
    (contracting : Contracting number members closed met g h) (known : w < g.vertexCount) :
    h.footing w = g.footing w ∪ {d | (w ∈ g.unprocessed ∧ w ∉ members) ∧
      ∃ v ∈ members, g.Joins v w ∧ d = g.depth v + 1} := by
  have settled : ∀ u, u < g.vertexCount → (∃ low, g.round? u = some low) ∨ u ∈ members →
      (h.Joins u w ↔ g.Joins u w) ∧ h.depth u = g.depth u := by
    intro u start low
    have settled : ¬ (u ∈ g.unprocessed ∧ u ∉ members) := by
      rintro ⟨open_, stays⟩
      rcases low with ⟨low, given⟩ | member
      · rw [(valid.round?_eq_none_iff start).mpr open_] at given
        cases given
      · exact stays member
    exact ⟨contracts.steps.joins_iff valid settled,
      contracting.depth_of_settled valid independent start settled⟩
  have size := contracts.closes.vertexCount
  have under := fun u (start : u < g.vertexCount) =>
    under_iff contracts valid levelled start known
  ext d
  constructor
  · rintro ⟨u, joins, below, rfl⟩
    have start := (joins.lt (contracts.wellFormed valid)).1
    rw [size] at start
    rcases (under u start).mp below with ⟨low, given, above⟩ | ⟨member, left⟩
    · obtain ⟨joined, depth⟩ := settled u start (.inl ⟨low, given⟩)
      exact .inl ⟨u, joined.mp joins, ⟨low, given, above⟩, by rw [depth]⟩
    · obtain ⟨joined, depth⟩ := settled u start (.inr member)
      exact .inr ⟨left, u, member, joined.mp joins, by rw [depth]⟩
  · rintro (⟨u, joins, below, rfl⟩ | ⟨left, u, member, joins, rfl⟩)
    · have start := (joins.lt valid).1
      obtain ⟨joined, depth⟩ := settled u start (.inl (below.imp fun _ => And.left))
      exact ⟨u, joined.mpr joins, (under u start).mpr (.inl below), by rw [depth]⟩
    · have start := (joins.lt valid).1
      obtain ⟨joined, depth⟩ := settled u start (.inr member)
      exact ⟨u, joined.mpr joins, (under u start).mpr (.inr ⟨member, left⟩), by rw [depth]⟩

/-- A round keeps a graph levelled. -/
theorem contracts (levelled : g.Levelled number) (valid : g.WellFormed)
    (independent : g.Independent members) (contracts : Contracts number members g h)
    (contracting : Contracting number members closed met g h) (whole : members.Perm closed) :
    h.Levelled (number + 1) := by
  have rounds := contracts.closes.round?
  have size := contracts.closes.vertexCount
  refine ⟨fun v known round given => ?_, fun u w joins different round given => ?_, ?_⟩
  · rw [size] at known
    rw [rounds v known] at given
    split at given
    · cases given
      exact Nat.lt_succ_self _
    · exact Nat.lt_succ_of_lt (levelled.early v known round given)
  · obtain ⟨start, goal⟩ := joins.lt (contracts.wellFormed valid)
    rw [size] at start goal
    intro same
    rw [rounds u start] at given
    rw [rounds w goal] at same
    split at given
    · next member =>
      cases given
      have before := (contracts.steps.joins_member_iff valid member).mp joins
      split at same
      · next other => exact independent.not_joins member other different before
      · exact Nat.lt_irrefl _ (levelled.early w goal _ same)
    · next outside =>
      split at same
      · cases same
        exact Nat.lt_irrefl _ (levelled.early u start _ given)
      · have settled : ¬ (u ∈ g.unprocessed ∧ u ∉ members) := by
          rintro ⟨open_, -⟩
          rw [(valid.round?_eq_none_iff start).mpr open_] at given
          cases given
        exact levelled.apart u w ((contracts.steps.joins_iff valid settled).mp joins) different
          round given same
  · intro w known
    rw [size] at known
    rw [levelled.footing_eq valid independent contracts contracting known]
    refine isGreatest_insert_union (levelled.depth w known) ?_
    by_cases left : w ∈ g.unprocessed ∧ w ∉ members
    · have raised := contracting.isGreatest_depth valid independent known left.2
      simp only [← whole.mem_iff] at raised
      simpa only [left, true_and, and_true, not_false_eq_true] using raised
    · rw [contracting.depth_of_settled valid independent known left]
      simp [left]

end Levelled

/-- Once no vertex is left, all vertices are held up by those that were contracted before them. -/
theorem under_iff_below (valid : g.WellFormed) (complete : g.unprocessed = [])
    (known : w < g.vertexCount) : g.Under u w ↔ g.Below u w := by
  constructor
  · rintro ⟨low, given, above⟩
    exact above.below valid complete known given
  · rintro ⟨low, high, given, later, below⟩
    refine ⟨low, given, fun round same => ?_⟩
    rw [later] at same
    cases same
    exact below

theorem WellFormed.exists_round (valid : g.WellFormed) (complete : g.unprocessed = [])
    (known : v < g.vertexCount) : ∃ round, g.round? v = some round := by
  refine Option.ne_none_iff_exists'.mp fun none => ?_
  have open_ := (valid.round?_eq_none_iff known).mp none
  rw [complete] at open_
  cases open_

namespace Levelled

/-- Once no vertex is left, live edges lead from one round to another. -/
theorem below_or_below (levelled : g.Levelled number) (valid : g.WellFormed)
    (complete : g.unprocessed = []) (joins : g.Joins u w) (different : u ≠ w) :
    g.Below u w ∨ g.Below w u := by
  obtain ⟨start, goal⟩ := joins.lt valid
  obtain ⟨low, first⟩ := valid.exists_round complete start
  obtain ⟨high, second⟩ := valid.exists_round complete goal
  have apart := levelled.apart u w joins different low first
  rcases Nat.lt_trichotomy low high with lower | rfl | higher
  · exact .inl ⟨low, high, first, second, lower⟩
  · exact (apart second).elim
  · exact .inr ⟨high, low, second, first, higher⟩

/-- Once no vertex is left, every depth is one more than the largest right below it. -/
theorem isGreatest_depth (levelled : g.Levelled number) (valid : g.WellFormed)
    (complete : g.unprocessed = []) (known : v < g.vertexCount) :
    IsGreatest (insert 0 {d | ∃ u, u ≠ v ∧ g.Joins u v ∧ g.Below u v ∧ d = g.depth u + 1})
      (g.depth v) := by
  have same : {d | ∃ u, u ≠ v ∧ g.Joins u v ∧ g.Below u v ∧ d = g.depth u + 1} =
      g.footing v := by
    ext d
    refine exists_congr fun u => ?_
    rw [under_iff_below valid complete known]
    refine and_iff_right_of_imp ?_
    rintro ⟨-, ⟨low, high, given, later, below⟩, -⟩ rfl
    rw [given] at later
    cases later
    exact Nat.lt_irrefl _ below
  rw [same]
  exact levelled.depth v known

/-- The round of a vertex bounds its depth: all vertices of a descent are of different rounds. -/
theorem depth_le_round (levelled : g.Levelled number) {round : Nat}
    (known : v < g.vertexCount) (given : g.round? v = some round) (valid : g.WellFormed) :
    g.depth v ≤ round := by
  induction round using Nat.strongRecOn generalizing v with
  | ind round ih =>
    rcases (levelled.depth v known).1 with zero | ⟨u, joins, ⟨low, before, above⟩, depth⟩
    · exact zero ▸ Nat.zero_le round
    · have lower := above round given
      have bound := ih low lower (joins.lt valid).1 before
      omega

/-- No depth exceeds the number of rounds. -/
theorem depth_le (levelled : g.Levelled number) (valid : g.WellFormed) (known : v < g.vertexCount) :
    g.depth v ≤ number := by
  rcases (levelled.depth v known).1 with zero | ⟨u, joins, ⟨low, given, -⟩, depth⟩
  · exact zero ▸ Nat.zero_le number
  · have start := (joins.lt valid).1
    have early := levelled.early u start low given
    have bound := levelled.depth_le_round start given valid
    omega

end Levelled

end Graph

namespace Strategy

open RoadHierarchy.Hierarchy RoadHierarchy.Graph

variable {s : Settings} {g : Graph} {h : Hierarchy} {strategy : Strategy} {sets : List (List Nat)}

/-- Every stage is levelled if the input is. -/
theorem Stage.levelled (stage : strategy.Stage s g sets h) (valid : g.WellFormed)
    (initial : g.Levelled 0) : h.graph.Levelled sets.length := by
  induction stage with
  | opening _ begins => exact initial.of_reranked valid begins.reranked
  | @round h next sets members stage performs ih =>
    have positive := (Settings.positive_of_validate stage.usable).2.1
    have before := stage.wellFormed valid
    obtain ⟨committed, commits, after⟩ := performs.commits
    obtain ⟨start, results, touched, committing⟩ := commits.exists_committing positive before
    have ready := committing.wellFormed before
    have contracts := committing.contracts before
    obtain ⟨closed, met, contracting, whole, -⟩ := applyRound_contracting ready committing.listed
      (committing.planned before) committing.applied
    have levelled := (ih.of_reranked before committing.reranked).contracts ready
      committing.independent contracts contracting whole
    rw [List.length_append]
    exact levelled.of_reranked (contracts.wellFormed ready) after

end Strategy

/-- Folding with `max` gives the greatest of the start and the members. -/
theorem isGreatest_foldl_max (values : List ℕ) (start : ℕ) :
    IsGreatest (insert start {d | d ∈ values}) (values.foldl max start) := by
  induction values generalizing start with
  | nil => simp
  | cons head rest ih =>
    have members : {d | d ∈ head :: rest} = {head} ∪ {d | d ∈ rest} := by
      ext d
      exact List.mem_cons
    rw [members]
    exact isGreatest_insert_union isGreatest_pair (ih (max start head))

namespace Hierarchy

open RoadHierarchy.Graph RoadHierarchy.Strategy

variable {s : Settings} {g : Graph} {h : Hierarchy} {extract : Extract}

/-- The largest depth that is noted is the largest depth of a vertex. -/
theorem isGreatest_maxDepth (h : Hierarchy) (rounds : Nat) :
    IsGreatest (insert 0 {d | ∃ v < h.graph.vertexCount, h.graph.depth v = d})
      (h.conclude rounds).statistics.maxDepth := by
  have found : ∀ v, (known : v < h.graph.vertexCount) →
      h.graph.depth v = (h.graph.vertices[v]).depth := by
    intro v known
    rw [Graph.depth, vertex?_of_lt known, Array.getElem?_eq_getElem known]
    rfl
  have depths : {d | ∃ v < h.graph.vertexCount, h.graph.depth v = d} =
      {d | d ∈ h.graph.vertices.toList.map (·.depth)} := by
    ext d
    constructor
    · rintro ⟨v, known, rfl⟩
      rw [found v known]
      exact List.mem_map_of_mem (Array.getElem_mem_toList known)
    · intro member
      obtain ⟨vertex, listed, rfl⟩ := List.mem_map.mp member
      obtain ⟨v, known, rfl⟩ := Array.mem_iff_getElem.mp (Array.mem_toList_iff.mp listed)
      exact ⟨v, known, found v known⟩
  rw [depths]
  exact isGreatest_foldl_max _ 0

/-- In a hierarchy, live edges between different vertices lead from one round to another. The depth
of a vertex is one more than the largest depth of a vertex of an earlier round that a live edge
joins to it, or 0 if there is none. Depths grow towards later rounds, and no depth exceeds the
round. -/
theorem depth_of_builtFrom (extracted : Graph.ofExtract extract = .ok g) (built : BuiltFrom s g h) :
    (∀ e ∈ h.graph.edges, e.removed = false → e.source ≠ e.target →
        h.graph.Below e.source e.target ∨ h.graph.Below e.target e.source) ∧
      (∀ v < h.graph.vertexCount, IsGreatest (insert 0 {d | ∃ u, u ≠ v ∧ h.graph.Joins u v ∧
        h.graph.Below u v ∧ d = h.graph.depth u + 1}) (h.graph.depth v)) ∧
      (∀ u w, h.graph.Joins u w → h.graph.Below u w → h.graph.depth u < h.graph.depth w) ∧
      (∀ v < h.graph.vertexCount, ∃ round,
        h.graph.round? v = some round ∧ h.graph.depth v ≤ round) ∧
      IsGreatest (insert 0 {d | ∃ v < h.graph.vertexCount, h.graph.depth v = d})
        h.statistics.maxDepth ∧
      (0 < h.graph.vertexCount → h.statistics.maxDepth < h.statistics.rounds) := by
  have before := (reachable_ofExtract extracted).wellFormed
  obtain ⟨strategy, sets, last, stage, complete, rfl⟩ := built.stage before
  have valid := stage.wellFormed before
  have initial := Levelled.of_plain (plain_ofExtract extracted) (depth_ofExtract extracted) before
  have levelled := stage.levelled before initial
  have bounded : ∀ v < last.graph.vertexCount, ∃ round,
      last.graph.round? v = some round ∧ last.graph.depth v ≤ round := fun v known =>
    (valid.exists_round complete known).imp fun round given =>
      ⟨given, levelled.depth_le_round known given valid⟩
  have greatest := isGreatest_maxDepth last sets.length
  refine ⟨fun e member alive different => ?_, fun v known => ?_, fun u w joins below => ?_, bounded,
    greatest, fun some => ?_⟩
  · exact levelled.below_or_below valid complete ⟨e, member, alive, .inl ⟨rfl, rfl⟩⟩ different
  · exact levelled.isGreatest_depth valid complete known
  · have known := (joins.lt valid).2
    have under := (under_iff_below valid complete known).mpr below
    exact (levelled.depth w known).2 (.inr ⟨u, joins, under, rfl⟩)
  · have early : ∀ v < last.graph.vertexCount, last.graph.depth v < sets.length := by
      intro v known
      obtain ⟨round, given, bound⟩ := bounded v known
      exact Nat.lt_of_le_of_lt bound (levelled.early v known round given)
    rcases greatest.1 with zero | ⟨v, known, depth⟩
    · exact zero ▸ Nat.lt_of_le_of_lt (Nat.zero_le _) (early 0 some)
    · exact depth ▸ early v known

/-- Junctions in a row, contracted from the second one on, each on the shoulders of the one
before. -/
theorem depth_of_builtFrom_row : ∃ g h, Graph.ofExtract
      ⟨List.replicate 4 ⟨0, 0⟩, [⟨0, 1, 1, true⟩, ⟨1, 2, 1, true⟩, ⟨2, 3, 1, true⟩]⟩ = .ok g ∧
    BuiltFrom {} g h ∧ h.graph.depth 3 = 3 ∧
      IsGreatest (insert 0 {d | ∃ u, u ≠ 3 ∧ h.graph.Joins u 3 ∧ h.graph.Below u 3 ∧
        d = h.graph.depth u + 1}) 3 ∧
      h.statistics.maxDepth = 3 ∧ h.statistics.maxDepth < h.statistics.rounds := by
  have computed : (do
      let g ← Graph.ofExtract
        ⟨List.replicate 4 ⟨0, 0⟩, [⟨0, 1, 1, true⟩, ⟨1, 2, 1, true⟩, ⟨2, 3, 1, true⟩]⟩
      let h ← buildInOrder {} [1, 2, 0, 3] g
      return (h.graph.vertexCount, h.graph.depth 3, h.statistics.maxDepth)).toOption =
      some (4, 3, 3) := by
    decide +kernel
  obtain ⟨g, extracted, computed⟩ := bind_eq_ok.mp (toOption_eq_some.mp computed)
  obtain ⟨h, ordered, computed⟩ := bind_eq_ok.mp computed
  have values := pure_eq_ok.mp computed
  simp only [Prod.mk.injEq] at values
  obtain ⟨size, deepest, greatest⟩ := values
  have built : BuiltFrom {} g h := .inr ⟨[1, 2, 0, 3], ordered⟩
  obtain ⟨-, longest, -, -, -, shallow⟩ := depth_of_builtFrom extracted built
  have descent := longest 3 (by omega)
  rw [deepest] at descent
  exact ⟨g, h, extracted, built, deepest, descent, greatest, shallow (by omega)⟩

end Hierarchy

end RoadHierarchy
