import Mathlib.Order.Bounds.Basic
import RoadHierarchy.Proofs.Contraction.Round
import RoadHierarchy.Proofs.Graph.Surroundings

/-! # What a round leaves of the surroundings

A round changes edges only around its members: between unprocessed vertices outside of the round
that are joined to a member. When a member is closed, just these vertices are put above it. As the
edges at a member stay the same during the round, it makes no difference when it is closed.
-/

namespace RoadHierarchy

/-- Two sets that a number climbs one after the other lift it to the greatest of both. -/
theorem isGreatest_insert_union {low high : Set ℕ} {a b c : ℕ} (first : IsGreatest (insert a low) b)
    (second : IsGreatest (insert b high) c) : IsGreatest (insert a (low ∪ high)) c := by
  have raised : b ≤ c := second.2 (Set.mem_insert b high)
  constructor
  · rcases second.1 with rfl | above
    · exact first.1.imp id .inl
    · exact .inr (.inr above)
  · rintro d (rfl | below | above)
    · exact (first.2 (Set.mem_insert d low)).trans raised
    · exact (first.2 (.inr below)).trans raised
    · exact second.2 (.inr above)

namespace Graph

/-- The vertex is unprocessed, outside of the round, and joined to a member of it. -/
def Around (g : Graph) (members : List Nat) (w : Nat) : Prop :=
  w ∈ g.unprocessed ∧ w ∉ members ∧ ∃ v ∈ members, g.Joins v w

/-- The later graph is the earlier one after a vertex has been closed, with its unprocessed
neighbours above it. -/
structure Closing (number v : Nat) (above : List Nat) (g h : Graph) : Prop where
  marked : ∃ raised, g.Tuned raised ∧ raised.markProcessed v number = .ok h
  mem_above : ∀ w, w ∈ above ↔ w ∈ g.unprocessed ∧ w ≠ v ∧ g.Joins v w
  depth : ∀ w < g.vertexCount,
    h.depth w = if w ∈ above then max (g.depth w) (g.depth v + 1) else g.depth w
  priority? : ∀ w < g.vertexCount, h.priority? w = g.priority? w

/-- The later graph is the earlier one after these members of a round have been contracted in turn.
The second list holds the vertices that have been put above them. -/
inductive Contracting (number : Nat) (members : List Nat) :
    List Nat → List Nat → Graph → Graph → Prop
  | nil {g : Graph} : Contracting number members [] [] g g
  | cons {g m next h : Graph} {v : Nat} {above rest later : List Nat} :
      Steps number members g m → m.vertices = g.vertices → v ∈ members →
      Closing number v above m next → Contracting number members rest later next h →
      Contracting number members (v :: rest) (above ++ later) g h

variable {g m h : Graph} {number u v w : Nat} {members closed met above : List Nat}

theorem Step.confined_around (step : Step number members g h) (valid : g.WellFormed) :
    g.Confined (g.Around members) h := by
  cases step with
  | tune tuned => exact .of_edges_eq tuned.edges
  | bridge bridging =>
    obtain ⟨start, goal⟩ := bridging.toPassage.mem_unprocessed valid
    exact bridging.toCrossing.confined valid
      ⟨start, bridging.start_stays, _, bridging.inRound, (Joins.of_live bridging.into).symm⟩
      ⟨goal, bridging.goal_stays, _, bridging.inRound, .of_live bridging.out⟩
  | close _ marked =>
    obtain ⟨-, rfl⟩ := markProcessed_eq_ok.mp marked
    exact .of_edges_eq rfl

namespace Steps

variable (steps : Steps number members g h) (valid : g.WellFormed)
include steps valid

theorem grows : g.Grows h := (steps.preserves valid (fun _ => True) fun _ _ => trivial).grows

/-- Members of the round, and vertices that were processed before it, are joined as before. -/
theorem joins_iff (settled : ¬ (v ∈ g.unprocessed ∧ v ∉ members)) : h.Joins v w ↔ g.Joins v w :=
  (steps.confined valid).joins_iff (grows steps valid) settled

theorem joins_member_iff (member : v ∈ members) : h.Joins v w ↔ g.Joins v w :=
  joins_iff steps valid fun outside => outside.2 member

theorem mem_unprocessed_iff (stays : w ∉ members) : w ∈ h.unprocessed ↔ w ∈ g.unprocessed :=
  ⟨mem_of_mem_unprocessed valid steps, fun open_ => mem_unprocessed valid steps open_ stays⟩

/-- Edges change only around the round. -/
theorem confined_around : g.Confined (g.Around members) h := by
  induction steps with
  | refl => exact .of_edges_eq rfl
  | tail sofar step ih =>
    refine ih.trans ((step.confined_around (Steps.wellFormed valid sofar)).mono ?_)
    rintro w ⟨open_, stays, v, member, joins⟩
    exact ⟨Steps.mem_of_mem_unprocessed valid sofar open_, stays, v, member,
      (joins_member_iff sofar valid member).mp joins⟩

end Steps

theorem Independent.not_joins (independent : g.Independent members) (start : u ∈ members)
    (goal : w ∈ members) (apart : u ≠ w) : ¬ g.Joins u w := by
  rintro ⟨e, member, alive, ⟨rfl, rfl⟩ | ⟨rfl, rfl⟩⟩
  · exact apart (independent e member alive start goal)
  · exact apart (independent e member alive goal start).symm

/-- Members that are independent stay so during the round. -/
theorem Steps.independent (steps : Steps number members g h) (valid : g.WellFormed)
    (independent : g.Independent members) : h.Independent members := by
  intro e member alive source target
  by_contra apart
  have joins : h.Joins e.source e.target := ⟨e, member, alive, .inl ⟨rfl, rfl⟩⟩
  exact independent.not_joins source target apart ((steps.joins_member_iff valid source).mp joins)

theorem Closing.steps (closing : Closing number v above g h) (member : v ∈ members) :
    Steps number members g h := by
  obtain ⟨raised, tuned, marked⟩ := closing.marked
  exact .head (.tune tuned) (.single (.close member marked))

theorem Closing.vertexCount (closing : Closing number v above g h) :
    h.vertexCount = g.vertexCount := by
  obtain ⟨raised, tuned, marked⟩ := closing.marked
  obtain ⟨-, rfl⟩ := markProcessed_eq_ok.mp marked
  exact Array.size_modify.trans tuned.vertexCount

/-- No member is put above another one. -/
theorem Closing.notMem_above (closing : Closing number v above g h)
    (independent : g.Independent members) (inRound : v ∈ members) (member : w ∈ members) :
    w ∉ above := by
  intro raised
  obtain ⟨-, apart, joins⟩ := (closing.mem_above w).mp raised
  exact independent.not_joins inRound member (Ne.symm apart) joins

/-- Shortcuts do not change which vertices around the round are put above a member. -/
theorem Closing.mem_above_iff (closing : Closing number v above m h)
    (steps : Steps number members g m) (valid : g.WellFormed) (inRound : v ∈ members)
    (stays : w ∉ members) : w ∈ above ↔ w ∈ g.unprocessed ∧ g.Joins v w := by
  have apart : w ≠ v := fun same => stays (same ▸ inRound)
  rw [closing.mem_above, steps.mem_unprocessed_iff valid stays,
    steps.joins_member_iff valid inRound, and_iff_right apart]

/-- Closing a vertex after its shortcuts have been added changes depths and priorities as if it had
been closed before. -/
theorem Closing.of_vertices_eq (closing : Closing number v above m h)
    (vertices : m.vertices = g.vertices) (known : w < g.vertexCount) :
    w < h.vertexCount ∧ h.priority? w = g.priority? w ∧
      h.depth w = if w ∈ above then max (g.depth w) (g.depth v + 1) else g.depth w := by
  have size : m.vertexCount = g.vertexCount := congrArg Array.size vertices
  rw [← size] at known
  refine ⟨closing.vertexCount.symm ▸ known, ?_, ?_⟩
  · rw [closing.priority? w known, priority?_of_vertices_eq vertices]
  · rw [closing.depth w known, depth_of_vertices_eq vertices, depth_of_vertices_eq vertices]

/-- Closing a member raises the vertices around the round that are joined to it. -/
theorem Closing.isGreatest_depth (closing : Closing number v above m h)
    (steps : Steps number members g m) (vertices : m.vertices = g.vertices) (valid : g.WellFormed)
    (inRound : v ∈ members) (known : w < g.vertexCount) (stays : w ∉ members) :
    IsGreatest (insert (g.depth w) {d | w ∈ g.unprocessed ∧ g.Joins v w ∧ d = g.depth v + 1})
      (h.depth w) := by
  obtain ⟨-, -, depth⟩ := closing.of_vertices_eq vertices known
  rw [depth]
  split
  · next raised =>
    obtain ⟨open_, joins⟩ := (closing.mem_above_iff steps valid inRound stays).mp raised
    have single : {d | w ∈ g.unprocessed ∧ g.Joins v w ∧ d = g.depth v + 1} = {g.depth v + 1} := by
      ext d
      exact ⟨fun member => member.2.2, fun same => ⟨open_, joins, same⟩⟩
    rw [single]
    exact isGreatest_pair
  · next level =>
    refine ⟨Set.mem_insert _ _, ?_⟩
    rintro d (rfl | ⟨open_, joins, -⟩)
    · exact le_rfl
    · exact (level ((closing.mem_above_iff steps valid inRound stays).mpr ⟨open_, joins⟩)).elim

namespace Contracting

/-- In which order the members are listed does not matter. -/
theorem perm {others : List Nat} (contracting : Contracting number members closed met g h)
    (same : members.Perm others) : Contracting number others closed met g h := by
  induction contracting with
  | nil => exact .nil
  | cons steps vertices member closing _ ih =>
    exact .cons (steps.perm same) vertices (same.mem_iff.mp member) closing ih

theorem mem_members (contracting : Contracting number members closed met g h) :
    ∀ v ∈ closed, v ∈ members := by
  induction contracting with
  | nil => exact fun v member => by cases member
  | cons _ _ member _ _ ih => exact List.forall_mem_cons.mpr ⟨member, ih⟩

/-- The vertices put above the members are those around the round that are joined to one of them. -/
theorem mem_met (contracting : Contracting number members closed met g h) (valid : g.WellFormed)
    (stays : w ∉ members) : w ∈ met ↔ w ∈ g.unprocessed ∧ ∃ v ∈ closed, g.Joins v w := by
  induction contracting with
  | nil => simp
  | @cons g m next h v above rest later steps vertices inRound closing contracting ih =>
    have onward : Steps number members g next := steps.trans (closing.steps inRound)
    have joined : ∀ u ∈ rest, (next.Joins u w ↔ g.Joins u w) := fun u listed =>
      onward.joins_member_iff valid (contracting.mem_members u listed)
    rw [List.mem_append, closing.mem_above_iff steps valid inRound stays,
      ih (onward.wellFormed valid), onward.mem_unprocessed_iff valid stays, ← and_or_left,
      List.exists_mem_cons_iff]
    exact and_congr_right fun _ =>
      or_congr_right (exists_congr fun u => and_congr_right (joined u))

theorem priority?_eq (contracting : Contracting number members closed met g h)
    (known : w < g.vertexCount) : h.priority? w = g.priority? w := by
  induction contracting with
  | nil => rfl
  | cons _ vertices _ closing _ ih =>
    obtain ⟨there, same, -⟩ := closing.of_vertices_eq vertices known
    rw [ih there, same]

/-- The members keep their depths. -/
theorem depth_of_mem (contracting : Contracting number members closed met g h)
    (valid : g.WellFormed) (independent : g.Independent members) (known : w < g.vertexCount)
    (member : w ∈ members) : h.depth w = g.depth w := by
  induction contracting with
  | nil => rfl
  | @cons g m next h v above rest later steps vertices inRound closing contracting ih =>
    have onward : Steps number members g next := steps.trans (closing.steps inRound)
    obtain ⟨there, -, depth⟩ := closing.of_vertices_eq vertices known
    have below := closing.notMem_above (steps.independent valid independent) inRound member
    rw [ih (onward.wellFormed valid) (onward.independent valid independent) there, depth,
      if_neg below]

/-- A vertex around the round is raised above all of the members that it is joined to, and no
further. -/
theorem isGreatest_depth (contracting : Contracting number members closed met g h)
    (valid : g.WellFormed) (independent : g.Independent members) (known : w < g.vertexCount)
    (stays : w ∉ members) :
    IsGreatest (insert (g.depth w)
      {d | w ∈ g.unprocessed ∧ ∃ v ∈ closed, g.Joins v w ∧ d = g.depth v + 1}) (h.depth w) := by
  induction contracting with
  | nil => simp
  | @cons g m next h v above rest later steps vertices inRound closing contracting ih =>
    have onward : Steps number members g next := steps.trans (closing.steps inRound)
    obtain ⟨there, -, -⟩ := closing.of_vertices_eq vertices known
    have first := closing.isGreatest_depth steps vertices valid inRound known stays
    have others := ih (onward.wellFormed valid) (onward.independent valid independent) there
    have apart : {d | w ∈ g.unprocessed ∧ ∃ u ∈ v :: rest, g.Joins u w ∧ d = g.depth u + 1} =
        {d | w ∈ g.unprocessed ∧ g.Joins v w ∧ d = g.depth v + 1} ∪
          {d | w ∈ next.unprocessed ∧ ∃ u ∈ rest, next.Joins u w ∧ d = next.depth u + 1} := by
      ext d
      rw [Set.mem_union, Set.mem_ofPred_eq, Set.mem_ofPred_eq, Set.mem_ofPred_eq,
        onward.mem_unprocessed_iff valid stays, ← and_or_left, List.exists_mem_cons_iff]
      refine and_congr_right fun _ => or_congr_right (exists_congr fun u => and_congr_right ?_)
      intro listed
      have member := contracting.mem_members u listed
      rw [onward.joins_member_iff valid member]
      refine and_congr_right fun joins => ?_
      obtain ⟨-, -, depth⟩ := closing.of_vertices_eq vertices (joins.lt valid).1
      rw [depth, if_neg (closing.notMem_above (steps.independent valid independent) inRound member)]
    rw [apart]
    exact isGreatest_insert_union first others

end Contracting

end Graph

namespace Hierarchy

open RoadHierarchy.Graph

variable {g : Graph} {round : Round} {h next last : Hierarchy} {v : Nat}

theorem foldlM_raiseDepth_eq_ok {raised : Graph} {above : List Nat} {depth : Nat}
    (known : ∀ w ∈ above, w < g.vertexCount)
    (success : above.foldlM (fun g neighbor => g.raiseDepth neighbor depth) g = .ok raised) :
    g.Tuned raised ∧ ∀ w < g.vertexCount, raised.priority? w = g.priority? w ∧
      raised.depth w = if w ∈ above then max (g.depth w) depth else g.depth w := by
  induction above generalizing g with
  | nil =>
    obtain rfl := pure_eq_ok.mp success
    exact ⟨.refl g, fun w _ => ⟨rfl, (if_neg List.not_mem_nil).symm⟩⟩
  | cons head rest ih =>
    obtain ⟨middle, first, later⟩ := foldlM_cons_eq_ok.mp success
    obtain ⟨here, others⟩ := List.forall_mem_cons.mp known
    have tuned := tuned_of_raiseDepth first
    obtain ⟨onward, kept⟩ := ih (fun w member => tuned.vertexCount.symm ▸ others w member) later
    refine ⟨tuned.trans onward, fun w inside => ?_⟩
    obtain ⟨priority, raised⟩ := kept w (tuned.vertexCount.symm ▸ inside)
    refine ⟨priority.trans (priority?_of_raiseDepth first inside), ?_⟩
    rw [raised, depth_of_raiseDepth first here inside]
    by_cases same : w = head <;> by_cases listed : w ∈ rest <;> simp [same, listed]

theorem mem_openNeighbors (valid : h.graph.WellFormed) (known : v < h.graph.vertexCount) {w : Nat} :
    w ∈ h.openNeighbors v ↔ w ∈ h.graph.unprocessed ∧ w ≠ v ∧ h.graph.Joins v w := by
  rw [openNeighbors, List.mem_filter, valid.mem_neighbors_iff known, valid.mem_unprocessed,
    Bool.not_eq_true']
  constructor
  · rintro ⟨⟨apart, joins⟩, flag⟩
    exact ⟨⟨(joins.lt valid).2, flag⟩, apart, joins⟩
  · rintro ⟨⟨-, flag⟩, apart, joins⟩
    exact ⟨⟨apart, joins⟩, flag⟩

theorem closing_of_close {above : List Nat} (valid : h.graph.WellFormed)
    (success : h.close round v = .ok (above, next)) :
    Closing round.number v above h.graph next.graph := by
  unfold close at success
  obtain ⟨vertex, found, success⟩ := bind_eq_ok.mp success
  obtain ⟨depth, added, success⟩ := bind_eq_ok.mp success
  obtain ⟨raised, lifted, success⟩ := bind_eq_ok.mp success
  obtain ⟨graph, marked, success⟩ := bind_eq_ok.mp success
  cases pure_eq_ok.mp success
  have deep : depth = h.graph.depth v + 1 := by
    rw [(addWithin_eq_ok_iff.mp added).1, Graph.depth, vertex_eq_ok.mp found]
    rfl
  have tuned : h.graph.Tuned raised :=
    foldlM_keeps h.graph.Tuned (fun _ _ _ _ step sofar => sofar.trans (tuned_of_raiseDepth step))
      lifted (.refl _)
  have known : v < h.graph.vertexCount := tuned.vertexCount ▸ (markProcessed_eq_ok.mp marked).1.1
  have members := fun w => mem_openNeighbors (w := w) valid known
  obtain ⟨-, kept⟩ := foldlM_raiseDepth_eq_ok (fun w member =>
    (valid.mem_unprocessed.mp ((members w).mp member).1).1) lifted
  have unmarked : ∀ w < h.graph.vertexCount,
      graph.depth w = raised.depth w ∧ graph.priority? w = raised.priority? w :=
    fun w inside => kept_of_markProcessed marked (tuned.vertexCount.symm ▸ inside)
  refine ⟨⟨raised, tuned, marked⟩, members, fun w inside => ?_, fun w inside => ?_⟩
  · rw [(unmarked w inside).1, (kept w inside).2, deep]
  · rw [(unmarked w inside).2, (kept w inside).1]

/-- Contracting vertices by their plans closes one after the other. -/
theorem contractAll_contracting {results : List (Nat × Simulation)} {met : List Nat}
    (valid : g.WellFormed) (sofar : Steps round.number round.members g h.graph)
    (planned : ∀ result ∈ results, result.1 ∈ round.members ∧
      g.Plan result.1 (· ∈ round.members) result.2.bypasses)
    (success : contractAll round results h = .ok (met, last)) :
    Contracting round.number round.members (results.map (·.1)) met h.graph last.graph := by
  induction results generalizing h met with
  | nil =>
    cases success
    exact .nil
  | cons result rest ih =>
    obtain ⟨⟨above, middle⟩, first, success⟩ := bind_eq_ok.mp success
    obtain ⟨⟨later, final⟩, onward, success⟩ := bind_eq_ok.mp success
    cases pure_eq_ok.mp success
    obtain ⟨inRound, plan⟩ := planned result (List.mem_cons_self ..)
    have before := sofar.wellFormed valid
    have advances := contract_advances valid sofar inRound plan first
    obtain ⟨unprocessed, -⟩ := closes_of_contract before first
    obtain ⟨bridged, added, closed⟩ := bind_eq_ok.mp first
    obtain ⟨steps, -⟩ := foldlM_addShortcut_bridges valid sofar inRound unprocessed plan
      (fun _ member => member) added
    obtain ⟨between, vertices⟩ := foldlM_addShortcut_keeps before added
    exact .cons steps vertices inRound (closing_of_close between closed)
      (ih (sofar.trans advances.steps)
        (fun other member => planned other (List.mem_cons_of_mem _ member)) onward)

/-- A round that commits a plan for every member closes all members. What it gives are the vertices
around it. -/
theorem applyRound_contracting {number : Nat} {results : List (Nat × Simulation)}
    {members touched : List Nat} (valid : h.graph.WellFormed) (listed : results.map (·.1) = members)
    (planned : ∀ result ∈ results, h.graph.Plan result.1 (· ∈ members) result.2.bypasses)
    (success : h.applyRound number results = .ok (touched, next)) :
    ∃ closed met, Contracting number members closed met h.graph next.graph ∧
      members.Perm closed ∧ touched.Pairwise (· < ·) ∧
      ∀ w, w ∈ touched ↔ h.graph.Around members w := by
  obtain ⟨⟨met, final⟩, contracted, success⟩ := bind_eq_ok.mp success
  cases pure_eq_ok.mp success
  have ordered := Agenda.perm_ofList (fun a b : Nat × Simulation => decide (a.1 ≤ b.1)) results
  have sorted := ordered.map (·.1)
  rw [listed] at sorted
  have plans : ∀ result ∈ Agenda.ofList (fun a b : Nat × Simulation => decide (a.1 ≤ b.1)) results,
      h.graph.Plan result.1 (· ∈ members) result.2.bypasses :=
    fun result member => planned result (ordered.mem_iff.mp member)
  simp only [← sorted.mem_iff] at plans
  have contracting := (contractAll_contracting valid .refl (fun result member =>
    ⟨List.mem_map_of_mem member, plans result member⟩) contracted).perm sorted
  refine ⟨_, met, contracting, sorted.symm, Ascending.pairwise_ofList _, fun w => ?_⟩
  rw [Ascending.mem_ofList, List.mem_filter, Around, and_left_comm, and_comm (a := w ∈ met)]
  simp only [Bool.not_eq_true', List.contains_eq_mem, decide_eq_false_iff_not, sorted.mem_iff]
  refine and_congr_right fun stays => ?_
  rw [contracting.mem_met valid stays]
  simp only [sorted.mem_iff]

end Hierarchy

end RoadHierarchy
