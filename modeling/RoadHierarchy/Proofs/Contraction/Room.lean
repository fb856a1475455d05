import Mathlib.Tactic.Ring
import RoadHierarchy.Proofs.Contraction.Depth
import RoadHierarchy.Proofs.Contraction.Discovery
import RoadHierarchy.Proofs.Contraction.Encoding
import RoadHierarchy.Proofs.Contraction.Order

/-! # Room for weights and distances

A contraction adds the weights of two edges over its vertex, and a search for a witness adds one
more edge to a distance that is no larger, before it looks whether the sum is within the limit. So it
may overflow although every shortcut that is needed has room for its weight, but only if three edges
between unprocessed vertices are too long together. In each round the largest weight at most
doubles, which leaves room for all sums if the weights of the input are small enough for its size.
-/

namespace RoadHierarchy

namespace Graph

/-- The weights of two edges over the vertex and of a third edge, all between unprocessed vertices,
have no room in one sum. -/
def Overloaded (g : Graph) (v : Nat) : Prop :=
  ∃ edgeIn edgeOut u w e x y, g.Passage v edgeIn edgeOut u w ∧ g.core e x y ∧
    2 ^ 64 ≤ edgeIn.weight + edgeOut.weight + e.weight

/-- No edge weighs more, whether it is live or not. -/
def Light (g : Graph) (bound : Nat) : Prop := ∀ e ∈ g.edges, e.weight ≤ bound

variable {g h : Graph} {v hopLimit number bound : Nat} {avoids : Nat → Bool} {members : List Nat}
  {sets : List (List Nat)}

/-- Unless the vertex is overloaded, every sum that its simulation forms has room. -/
theorem fits_of_not_overloaded (valid : g.WellFormed) (unprocessed : v ∈ g.unprocessed)
    (room : ¬ g.Overloaded v) : g.Fits hopLimit v avoids := by
  intro pair leads
  have below : ∀ e x y, g.core e x y → pair.1.weight + pair.2.weight + e.weight < 2 ^ 64 :=
    fun e x y step => Nat.lt_of_not_le fun full => room ⟨_, _, _, _, e, x, y, leads, step, full⟩
  have here := (valid.mem_unprocessed.mp unprocessed).2
  have sum := below pair.1 _ v ⟨leads.into, leads.start_open, here⟩
  refine ⟨by omega, fun overflows => ?_⟩
  let q := g.pairQuery hopLimit v avoids pair
  have open_ : ∀ x, q.Visits (pair.1.other v) x → g.isProcessed x = false := by
    rintro x (rfl | ⟨-, open_⟩)
    · exact leads.start_open
    · exact open_
  obtain ⟨found, searched⟩ := Witness.Query.exists_hasPathFrom (q := q) valid
    (leads.mem_vertices valid).1
    fun e x y step start goal => below e x y ⟨step, open_ x start, open_ y goal⟩
  rw [searched] at overflows
  cases overflows

/-- A passage leads over three different unprocessed vertices. -/
theorem Passage.three_le_length {edgeIn edgeOut : Edge} {u w : Nat} (valid : g.WellFormed)
    (unprocessed : v ∈ g.unprocessed) (passage : g.Passage v edgeIn edgeOut u w) :
    3 ≤ g.unprocessed.length := by
  obtain ⟨start, goal⟩ := passage.mem_unprocessed valid
  have different : [u, v, w].Nodup := by
    simp [passage.start_apart, passage.goal_apart.symm, passage.apart]
  have inside : [u, v, w] ⊆ g.unprocessed := by
    simp [start, goal, unprocessed]
  exact (different.subperm inside).length_le

namespace Light

/-- In a round, the largest weight at most doubles. -/
theorem contracts (light : g.Light bound) (valid : g.WellFormed)
    (contracts : Contracts number members g h) : h.Light (2 * bound) := by
  intro e member
  by_cases before : ∃ old ∈ g.edges, old.Ages e
  · obtain ⟨old, there, aged⟩ := before
    have weight := light old there
    rw [aged.weight]
    omega
  · obtain ⟨-, -, via, -, -, first, second, passage, sum⟩ :=
      contracts.exists_passage valid member before
    have into := light first passage.into.1
    have out := light second passage.out.1
    omega

theorem run (light : g.Light bound) (valid : g.WellFormed) (run : Run number g sets h) :
    h.Light (2 ^ sets.length * bound) := by
  induction run generalizing bound with
  | done tuned =>
    unfold Light
    rw [tuned.edges, List.length_nil, pow_zero, one_mul]
    exact light
  | @round _ g m _ _ _ rest tuned _ contracts _ ih =>
    have before := tuned.wellFormed valid
    have ready : m.Light bound := by
      unfold Light
      rw [tuned.edges]
      exact light
    rw [List.length_cons, pow_succ, mul_assoc]
    exact ih (ready.contracts before contracts) (contracts.wellFormed before)

theorem not_overloaded (light : g.Light bound) (room : 3 * bound < 2 ^ 64) : ¬ g.Overloaded v := by
  rintro ⟨edgeIn, edgeOut, u, w, e, x, y, passage, step, full⟩
  have into := light edgeIn passage.into.1
  have out := light edgeOut passage.out.1
  have third := light e step.1.1
  omega

end Light

end Graph

namespace Strategy

open RoadHierarchy.Hierarchy RoadHierarchy.Graph

variable {s : Settings} {g : Graph} {h next : Hierarchy} {strategy : Strategy} {number v : Nat}
  {members : List Nat} {sets : List (List Nat)}

/-- The weight of a shortcut that a round makes has been added without an overflow. -/
theorem Commits.weight_lt (commits : strategy.Commits s number members h next)
    (positive : 0 < s.kNeighborhood) (valid : h.graph.WellFormed) {e : Edge}
    (member : e ∈ next.graph.edges) (fresh : ¬ ∃ old ∈ h.graph.edges, old.Ages e) :
    e.weight < 2 ^ 64 := by
  obtain ⟨start, results, touched, committing⟩ := commits.exists_committing positive valid
  have tuned := committing.reranked.toTuned
  rw [← tuned.edges] at fresh
  obtain ⟨-, -, via, inRound, -, first, second, passage, sum⟩ :=
    (committing.contracts valid).exists_passage (committing.wellFormed valid) member fresh
  have known := committing.known via inRound
  rw [← committing.listed] at inRound
  obtain ⟨result, inside, rfl⟩ := List.mem_map.mp inRound
  have fits := (fits_iff valid known).mpr ⟨_, committing.genuine result inside⟩
  rw [sum]
  exact (fits _ (tuned.symm.passage passage).leadsOver).1

/-- The weights of all shortcuts have been added without an overflow. -/
theorem Stage.weight_lt (stage : strategy.Stage s g sets h) (valid : g.WellFormed)
    (plain : g.Plain) : ∀ e ∈ h.graph.edges, e.isShortcut = true → e.weight < 2 ^ 64 := by
  induction stage with
  | opening _ begins =>
    intro e member short
    rw [begins.reranked.edges] at member
    exact (plain.not_isShortcut member short).elim
  | @round h next sets members stage performs ih =>
    obtain ⟨committed, commits, reranked⟩ := performs.commits
    intro e member short
    rw [reranked.edges] at member
    by_cases before : ∃ old ∈ h.graph.edges, old.Ages e
    · obtain ⟨old, there, aged⟩ := before
      rw [aged.weight]
      exact ih old there (aged.isShortcut ▸ short)
    · exact commits.weight_lt (Settings.positive_of_validate stage.usable).2.1
        (stage.wellFormed valid) member before

/-- While vertices are contracted one by one, none is overloaded if the weights of the input are
small enough for its size. -/
theorem Stage.not_overloaded {first : List Nat} {bound : Nat}
    (stage : strategy.Stage s g (first.map ([·])) h) (valid : g.WellFormed) (light : g.Light bound)
    (small : 3 * 2 ^ g.unprocessed.length * bound < 2 ^ 67)
    (unprocessed : v ∈ h.graph.unprocessed) : ¬ h.graph.Overloaded v := by
  intro overloaded
  have counted := (perm_of_stage valid stage).length_eq
  have grown := light.run valid (stage.run valid)
  rw [List.length_map] at grown
  have left : 3 ≤ h.graph.unprocessed.length := by
    obtain ⟨_, _, _, _, _, _, _, passage, -⟩ := overloaded
    exact passage.three_le_length (stage.wellFormed valid) unprocessed
  refine grown.not_overloaded ?_ overloaded
  -- Three vertices are left at least, so the weights have doubled three times less than they may.
  have doubled : 2 ^ (first.length + 3) ≤ 2 ^ g.unprocessed.length := by
    apply Nat.pow_le_pow_right Nat.two_pos
    rw [counted, List.length_append]
    omega
  have eightfold : 8 * (3 * (2 ^ first.length * bound)) = 3 * 2 ^ (first.length + 3) * bound := by
    ring
  have weighed : 8 * (3 * (2 ^ first.length * bound)) < 2 ^ 67 := by
    rw [eightfold]
    exact (Nat.mul_le_mul_right bound (Nat.mul_le_mul_left 3 doubled)).trans_lt small
  omega

end Strategy

namespace Hierarchy

open RoadHierarchy.Graph RoadHierarchy.Strategy

/-- The order asks too much: an entry of it is overloaded in its turn, and some sum for it has no
room. -/
def Overtaxes (s : Settings) (g : Graph) (order : List Nat) : Prop :=
  ∃ (first : List Nat) (v : Nat) (later : List Nat) (h : Hierarchy), first ++ v :: later = order ∧
    (inOrder order).Stage s g (first.map ([·])) h ∧ v ∈ h.graph.unprocessed ∧
      ¬ h.graph.Fits s.searchSpaceHopLimit v (· == v) ∧ h.graph.Overloaded v

variable {s : Settings} {g : Graph} {h : Hierarchy} {extract : Extract} {order : List Nat}
  {v number : Nat}

/-- A vertex for which all sums have room can be contracted as a round of its own. -/
theorem exists_contractNext (valid : h.graph.WellFormed) (unprocessed : v ∈ h.graph.unprocessed)
    (fits : h.graph.Fits s.searchSpaceHopLimit v (· == v))
    (shallow : h.graph.depth v + 1 < 2 ^ 32) :
    ∃ next, h.contractNext s (v, number) = .ok next := by
  have known := (valid.mem_unprocessed.mp unprocessed).1
  obtain ⟨simulation, simulated⟩ := (fits_iff valid known).mp fits
  have weighs : h.graph.Weighs (fun _ => False) v := fun edgeIn edgeOut u w passage =>
    .of_eq_ok (addWithin_eq_ok_iff.mpr ⟨rfl, (fits _ passage.leadsOver).1⟩) rfl
  have returns : Returns (fun _ => False) (fun _ => True) (h.contractNext s (v, number)) :=
    contractNext_returns valid unprocessed (.of_eq_ok simulated trivial) weighs
      (.of_eq_ok (addWithin_eq_ok_iff.mpr ⟨rfl, shallow⟩) trivial)
  obtain ⟨next, contracted, -⟩ := returns.exists_ok fun _ => False.elim
  exact ⟨next, contracted⟩

/-- A sum overflows only where an order asks too much, as long as depths have room. -/
theorem follows_or_overtaxes (valid : g.WellFormed) (initial : g.Levelled 0) :
    Follows s g order fun failure =>
      failure = .overflow ∧ (g.vertexCount < 2 ^ 32 → Overtaxes s g order) := by
  intro first v later h split stage open_
  have before := stage.wellFormed valid
  by_cases contracts : ∃ next, h.contractNext s (v, first.length) = .ok next
  · obtain ⟨next, contracted⟩ := contracts
    exact .of_eq_ok contracted trivial
  · refine (contractNext_overflows before open_).imp
      (fun failure _ overflows => ⟨overflows, fun few => ?_⟩) fun _ _ _ => trivial
    have shallow : h.graph.depth v + 1 < 2 ^ 32 := by
      have known := (before.mem_unprocessed.mp open_).1
      have deep := (stage.levelled valid initial).depth_le before known
      have counted := (perm_of_stage valid stage).length_eq
      have left := List.length_pos_of_mem open_
      have size := valid.unprocessed_sublist.length_le
      simp only [List.length_map, List.length_append, List.length_range] at deep counted size
      omega
    have full : ¬ h.graph.Fits s.searchSpaceHopLimit v (· == v) := fun fits =>
      contracts (exists_contractNext before open_ fits shallow)
    refine ⟨first, v, later, h, split, stage, open_, full, ?_⟩
    by_contra room
    exact full (fits_of_not_overloaded before open_ room)

/-- An order that has been followed does not ask too much. -/
theorem not_overtaxes (valid : g.WellFormed) (success : buildInOrder s order g = .ok h) :
    ¬ Overtaxes s g order := by
  rintro ⟨first, v, later, middle, rfl, stage, open_, full, -⟩
  have before := stage.wellFormed valid
  obtain ⟨next, contracted⟩ := stage.exists_contractNext_of_buildInOrder success
  obtain ⟨known, simulation, simulated, -⟩ := contractNext_eq_ok contracted
  exact full ((fits_iff before known).mpr ⟨simulation, simulated⟩)

/-- Every vertex, listed once in any order, is contracted in its turn, and then the weights of the
shortcuts are the exact sums of the input edges that they unpack to, unless a sum overflows. As long
as depths have room, that happens exactly if the order asks too much, and it cannot happen if the
weights of the input are small enough for its size. -/
theorem buildInOrder_exact (extracted : Graph.ofExtract extract = .ok g)
    (usable : s.validate = .ok ()) (whole : order.Perm (List.range g.vertexCount)) :
    (∀ h, buildInOrder s order g = .ok h → ∀ e ∈ h.graph.edges, e.isShortcut = true →
        e.weight < 2 ^ 64 ∧ ∃ parts, h.graph.unpack e.id = .ok (parts.map (·.id)) ∧
          g.live.Route e.source parts e.target ∧ Edge.totalWeight parts = e.weight) ∧
      ((∃ h, buildInOrder s order g = .ok h) ∨ buildInOrder s order g = .error .overflow) ∧
      (g.vertexCount < 2 ^ 32 →
        (buildInOrder s order g = .error .overflow ↔ Overtaxes s g order) ∧
          ∀ bound, g.Light bound → 3 * 2 ^ g.vertexCount * bound < 2 ^ 67 →
            ∃ h, buildInOrder s order g = .ok h) := by
  have valid := (reachable_ofExtract extracted).wellFormed
  have plain := plain_ofExtract extracted
  have initial := Levelled.of_plain plain (depth_ofExtract extracted) valid
  have listed := plain.unprocessed_eq valid
  have returns := buildInOrder_returns valid usable (listed ▸ whole)
    (follows_or_overtaxes valid initial)
  refine ⟨fun h success e member short => ?_, ?_, fun few => ⟨⟨fun overflows => ?_, ?_⟩, ?_⟩⟩
  · obtain ⟨-, last, stage, -, rfl⟩ := stage_of_order valid success
    have run := stage.run valid
    have after := run.wellFormed valid
    have founded := (Founded.of_plain plain).run valid run
    obtain ⟨parts, route, length, -, driven⟩ :=
      founded.unpacks plain after member (.inl ⟨rfl, rfl⟩)
    refine ⟨stage.weight_lt valid plain e member short, parts, ?_, route, length⟩
    exact (unpack_eq_ok after member).trans (congrArg Except.ok driven)
  · cases outcome : buildInOrder s order g with
    | ok h => exact .inl ⟨h, rfl⟩
    | error failure =>
      rw [outcome] at returns
      exact .inr (congrArg Except.error returns.1)
  · rw [overflows] at returns
    exact returns.2 few
  · intro overtaxes
    cases outcome : buildInOrder s order g with
    | ok h => exact (not_overtaxes valid outcome overtaxes).elim
    | error failure =>
      rw [outcome] at returns
      exact congrArg Except.error returns.1
  · intro bound light small
    rw [← List.length_range (n := g.vertexCount), ← listed] at small
    obtain ⟨h, success, -⟩ := returns.exists_ok fun failure cause _ => by
      obtain ⟨first, v, later, middle, -, stage, open_, -, overloaded⟩ := cause.2 few
      exact stage.not_overloaded valid light small open_ overloaded
    exact ⟨h, success⟩

/-- Two roads of the largest weight that a road can have: the shortcut over both just has room. -/
theorem buildInOrder_exact_row : ∃ g h parts, ofExtract ⟨List.replicate 3 ⟨0, 0⟩,
      [⟨0, 1, 9223372036854775807, false⟩, ⟨1, 2, 9223372036854775807, false⟩]⟩ = .ok g ∧
    buildInOrder {} [1, 0, 2] g = .ok h ∧
    h.graph.edges[2]? = some ⟨2, 0, 2, 18446744073709551614, 2, false, some (0, 1), false⟩ ∧
    h.graph.unpack 2 = .ok (parts.map (·.id)) ∧ g.live.Route 0 parts 2 ∧
    Edge.totalWeight parts = 18446744073709551614 := by
  have computed : (do
      let g ← ofExtract ⟨List.replicate 3 ⟨0, 0⟩,
        [⟨0, 1, 9223372036854775807, false⟩, ⟨1, 2, 9223372036854775807, false⟩]⟩
      Settings.validate {}
      let h ← buildInOrder {} [1, 0, 2] g
      return (g.vertexCount, h.graph.edges[2]?)).toOption =
      some (3, some ⟨2, 0, 2, 18446744073709551614, 2, false, some (0, 1), false⟩) := by
    decide +kernel
  obtain ⟨g, extracted, computed⟩ := bind_eq_ok.mp (toOption_eq_some.mp computed)
  obtain ⟨_, usable, computed⟩ := bind_eq_ok.mp computed
  obtain ⟨h, built, computed⟩ := bind_eq_ok.mp computed
  obtain ⟨size, made⟩ := Prod.mk.inj (pure_eq_ok.mp computed)
  have whole : [1, 0, 2].Perm (List.range g.vertexCount) := by
    rw [size]
    decide
  obtain ⟨-, parts, unpacked, route, length⟩ :=
    (buildInOrder_exact extracted usable whole).1 h built _ (mem_edges_iff.mpr ⟨2, made⟩) rfl
  exact ⟨g, h, parts, extracted, built, made, unpacked, route, length⟩

/-- Five roads of the largest weight that a road can have. The shortcut that is needed has room, and
no other one would be needed. But the search for a witness drives over three roads that leave in the
other direction, and the sum of their weights overflows. -/
theorem buildInOrder_overflows : ∃ g, ofExtract ⟨List.replicate 6 ⟨0, 0⟩,
      [⟨0, 1, 9223372036854775807, false⟩, ⟨1, 2, 9223372036854775807, false⟩,
        ⟨0, 3, 9223372036854775807, false⟩, ⟨3, 4, 9223372036854775807, false⟩,
        ⟨4, 5, 9223372036854775807, false⟩]⟩ = .ok g ∧
    Settings.validate {} = .ok () ∧ [1, 5, 4, 3, 0, 2].Perm (List.range g.vertexCount) ∧
    buildInOrder {} [1, 5, 4, 3, 0, 2] g = .error .overflow := by
  have computed : (do
      let g ← ofExtract ⟨List.replicate 6 ⟨0, 0⟩,
        [⟨0, 1, 9223372036854775807, false⟩, ⟨1, 2, 9223372036854775807, false⟩,
          ⟨0, 3, 9223372036854775807, false⟩, ⟨3, 4, 9223372036854775807, false⟩,
          ⟨4, 5, 9223372036854775807, false⟩]⟩
      Settings.validate {}
      let overflown := match buildInOrder {} [1, 5, 4, 3, 0, 2] g with
        | .error .overflow => true
        | _ => false
      return (g.vertexCount, overflown)).toOption = some (6, true) := by
    decide +kernel
  obtain ⟨g, extracted, computed⟩ := bind_eq_ok.mp (toOption_eq_some.mp computed)
  obtain ⟨_, usable, computed⟩ := bind_eq_ok.mp computed
  obtain ⟨size, overflown⟩ := Prod.mk.inj (pure_eq_ok.mp computed)
  refine ⟨g, extracted, usable, ?_, ?_⟩
  · rw [size]
    decide
  · split at overflown
    · assumption
    · cases overflown

end Hierarchy

end RoadHierarchy
