import RoadHierarchy.Contraction.Simulation
import RoadHierarchy.Proofs.Contraction.Witness
import RoadHierarchy.Proofs.Graph.Marks

/-! # What a simulated contraction promises

The bypasses of a simulation are a plan for the contraction of its vertex. Every bypass stands for a
passage over the vertex, and every passage has a bypass or a witness, so that nothing is lost when
the vertex is gone.
-/

namespace RoadHierarchy

/-- A list without its repetitions has none. -/
theorem nodup_eraseDups {α : Type} [BEq α] [LawfulBEq α] (items : List α) :
    items.eraseDups.Nodup := by
  induction size : items.length using Nat.strongRecOn generalizing items with
  | ind _ ih =>
    cases items with
    | nil =>
      rw [List.eraseDups_nil]
      exact .nil
    | cons head rest =>
      rw [List.eraseDups_cons, List.nodup_cons]
      constructor
      · rw [List.mem_eraseDups]
        simp
      · have fewer := List.length_filter_le (fun item => !item == head) rest
        apply ih _ _ _ rfl
        rw [← size, List.length_cons]
        omega

/-- The bypass stands for driving in over one edge and out over the other. -/
def Bypass.Covers (b : Bypass) (edgeIn edgeOut : Nat) : Prop :=
  (b.edgeIn = edgeIn ∧ b.edgeOut = edgeOut) ∨
    (b.bothWays = true ∧ b.edgeIn = edgeOut ∧ b.edgeOut = edgeIn)

namespace Graph

/-- The two edges lead over `v`, from one vertex to a different one. -/
structure Crossing (g : Graph) (v : Nat) (edgeIn edgeOut : Edge) (u w : Nat) : Prop where
  into : g.live edgeIn u v
  out : g.live edgeOut v w
  start_apart : u ≠ v
  goal_apart : w ≠ v
  apart : u ≠ w

/-- A crossing between vertices that have not been contracted. -/
structure Passage (g : Graph) (v : Nat) (edgeIn edgeOut : Edge) (u w : Nat) : Prop
    extends g.Crossing v edgeIn edgeOut u w where
  start_open : g.isProcessed u = false
  goal_open : g.isProcessed w = false

/-- The bypasses make the passages over `v` unnecessary, once certain vertices are gone. -/
structure Plan (g : Graph) (v : Nat) (gone : Nat → Prop) (bypasses : List Bypass) : Prop where
  sound : ∀ b ∈ bypasses, ∃ edgeIn edgeOut u w, edgeIn.id = b.edgeIn ∧ edgeOut.id = b.edgeOut ∧
    g.Passage v edgeIn edgeOut u w ∧ (b.bothWays = true → g.Passage v edgeOut edgeIn w u)
  complete : ∀ edgeIn edgeOut u w, g.Passage v edgeIn edgeOut u w → ¬ gone u →
    (∃ b ∈ bypasses, b.Covers edgeIn.id edgeOut.id) ∨
      (g.live.within fun x => g.isProcessed x = false ∧ ¬ gone x).Reaches u w
        (edgeIn.weight + edgeOut.weight)

end Graph

namespace Witness

variable {q : Query}

/-- A witness from a vertex that it might visit itself is a route through such vertices. -/
theorem Query.HasWitness.reaches {source : Nat} (witness : q.HasWitness source)
    (start : q.avoids source = false ∧ q.graph.isProcessed source = false) :
    (q.graph.live.within fun v => q.avoids v = false ∧ q.graph.isProcessed v = false).Reaches
      source q.target q.limit := by
  obtain ⟨edges, route, -, -, length⟩ := witness
  refine ⟨edges, ?_, length⟩
  generalize q.target = goal at route
  clear length
  induction route with
  | nil v => exact .nil v
  | cons step _ ih => exact .cons ⟨step.1, start, step.2⟩ (ih step.2)

end Witness

namespace Simulation

variable {needed : List (Nat × Nat)} {b : Bypass}

/-- A needed pair is listed unless its other direction is listed for it. -/
theorem mem_pairUp : b ∈ pairUp needed ↔ (b.edgeIn, b.edgeOut) ∈ needed ∧
    (b.edgeIn < b.edgeOut ∨ (b.edgeOut, b.edgeIn) ∉ needed) ∧
      b.bothWays = needed.contains (b.edgeOut, b.edgeIn) := by
  obtain ⟨edgeIn, edgeOut, bothWays⟩ := b
  simp only [pairUp, List.mem_map, List.mem_filter, Prod.exists, Bypass.mk.injEq, Bool.or_eq_true,
    decide_eq_true_eq, Bool.not_eq_true', List.contains_eq_mem, decide_eq_false_iff_not]
  constructor
  · rintro ⟨_, _, ⟨listed, kept⟩, rfl, rfl, rfl⟩
    exact ⟨listed, kept, rfl⟩
  · rintro ⟨listed, kept, rfl⟩
    exact ⟨_, _, ⟨listed, kept⟩, rfl, rfl, rfl⟩

/-- Every bypass is needed in the directions it names. -/
theorem needed_of_mem_pairUp (member : b ∈ pairUp needed) :
    (b.edgeIn, b.edgeOut) ∈ needed ∧ (b.bothWays = true → (b.edgeOut, b.edgeIn) ∈ needed) := by
  obtain ⟨listed, -, named⟩ := mem_pairUp.mp member
  exact ⟨listed, fun both => List.contains_iff_mem.mp (named.symm.trans both)⟩

/-- Whatever is needed has a bypass, unless it turns back on one edge. -/
theorem covers_of_mem {edgeIn edgeOut : Nat} (member : (edgeIn, edgeOut) ∈ needed)
    (apart : edgeIn ≠ edgeOut) : ∃ b ∈ pairUp needed, b.Covers edgeIn edgeOut := by
  by_cases swapped : edgeOut < edgeIn ∧ (edgeOut, edgeIn) ∈ needed
  · refine ⟨⟨edgeOut, edgeIn, needed.contains (edgeIn, edgeOut)⟩, ?_, ?_⟩
    · exact mem_pairUp.mpr ⟨swapped.2, .inl swapped.1, rfl⟩
    · exact .inr ⟨List.contains_iff_mem.mpr member, rfl, rfl⟩
  · refine ⟨⟨edgeIn, edgeOut, needed.contains (edgeOut, edgeIn)⟩, ?_, .inl ⟨rfl, rfl⟩⟩
    refine mem_pairUp.mpr ⟨member, ?_, rfl⟩
    by_cases ascending : edgeIn < edgeOut
    · exact .inl ascending
    · exact .inr fun listed => swapped ⟨by omega, listed⟩

/-- The members that pass are kept, in their order, once every member has been tested. -/
theorem keep_eq_ok {α : Type} {test : α → Except Failure Bool} {items kept : List α} :
    keep test items = .ok kept ↔ (∀ item ∈ items, ∃ passes, test item = .ok passes) ∧
      items.filter (fun item => (test item).toOption == some true) = kept := by
  induction items generalizing kept with
  | nil => simp [keep]
  | cons head rest ih =>
    rw [keep, bind_eq_ok, List.forall_mem_cons, and_assoc, List.filter_cons]
    constructor
    · rintro ⟨passes, tested, success⟩
      obtain ⟨others, later, kept⟩ := bind_eq_ok.mp success
      obtain ⟨tests, rfl⟩ := ih.mp later
      refine ⟨⟨passes, tested⟩, tests, ?_⟩
      rw [tested, ← pure_eq_ok.mp kept]
      cases passes <;> rfl
    · rintro ⟨⟨passes, tested⟩, tests, rfl⟩
      refine ⟨passes, tested, bind_eq_ok.mpr ⟨_, ih.mpr ⟨tests, rfl⟩, pure_eq_ok.mpr ?_⟩⟩
      rw [tested]
      cases passes <;> rfl

/-- The members that are kept are those that pass, and every member has been tested. -/
theorem mem_keep {α : Type} {test : α → Except Failure Bool} {items kept : List α}
    (success : keep test items = .ok kept) :
    (∀ item ∈ kept, item ∈ items ∧ test item = .ok true) ∧
      ∀ item ∈ items, item ∈ kept ∨ test item = .ok false := by
  obtain ⟨tests, rfl⟩ := keep_eq_ok.mp success
  simp only [List.mem_filter, beq_iff_eq, toOption_eq_some]
  refine ⟨fun item member => member, fun item member => ?_⟩
  obtain ⟨passes, tested⟩ := tests item member
  cases passes with
  | true => exact .inl ⟨member, tested⟩
  | false => exact .inr tested
end Simulation

namespace Graph

variable {g : Graph} {v : Nat}

namespace Passage

variable {edgeIn edgeOut : Edge} {u w : Nat}

theorem edge_apart (valid : g.WellFormed) (passage : g.Passage v edgeIn edgeOut u w) :
    edgeIn.id ≠ edgeOut.id := by
  intro same
  obtain rfl := valid.eq_of_id passage.into.1 passage.out.1 same
  have back := passage.into.2.2.other_end
  rw [passage.out.2.2.other] at back
  exact passage.apart back.symm

theorem mem_passages (valid : g.WellFormed) (passage : g.Passage v edgeIn edgeOut u w) :
    (edgeIn, edgeOut) ∈ g.passages v := by
  have start := passage.into.2.2.other_end
  have goal := passage.out.2.2.other
  simp only [passages, leadsOn, List.mem_filter, List.mem_flatMap, List.mem_map, Prod.mk.injEq,
    Bool.and_eq_true, Bool.not_eq_true', bne_iff_ne]
  refine ⟨⟨edgeIn, ⟨valid.mem_ingoing_of_live passage.into, ?_⟩, edgeOut,
    ⟨valid.mem_outgoing_of_live passage.out, ?_⟩, rfl, rfl⟩, ?_⟩
  · rw [start]
    exact ⟨passage.start_apart, passage.start_open⟩
  · rw [goal]
    exact ⟨passage.goal_apart, passage.goal_open⟩
  · rw [start, goal]
    exact passage.apart

end Passage

theorem passage_of_mem (valid : g.WellFormed) (known : v < g.vertexCount) {edgeIn edgeOut : Edge}
    (member : (edgeIn, edgeOut) ∈ g.passages v) :
    g.Passage v edgeIn edgeOut (edgeIn.other v) (edgeOut.other v) := by
  simp only [passages, leadsOn, List.mem_filter, List.mem_flatMap, List.mem_map, Prod.mk.injEq,
    Bool.and_eq_true, Bool.not_eq_true', bne_iff_ne] at member
  obtain ⟨⟨_, ⟨into, startApart, startOpen⟩, _, ⟨out, goalApart, goalOpen⟩, rfl, rfl⟩, apart⟩ :=
    member
  exact ⟨⟨(valid.mem_ingoing known).mp into, (valid.mem_outgoing known).mp out, startApart,
    goalApart, apart⟩, startOpen, goalOpen⟩

/-- A passage that needs no shortcut has a witness. -/
theorem reaches_of_needsShortcut (valid : g.WellFormed) {hopLimit : Nat} {avoids : Nat → Bool}
    {edgeIn edgeOut : Edge} {u w : Nat} (passage : g.Passage v edgeIn edgeOut u w)
    (clear : avoids u = false)
    (success : g.needsShortcut hopLimit v avoids (edgeIn, edgeOut) = .ok false) :
    (g.live.within fun x => avoids x = false ∧ g.isProcessed x = false).Reaches u w
      (edgeIn.weight + edgeOut.weight) := by
  unfold needsShortcut at success
  obtain ⟨limit, added, success⟩ := bind_eq_ok.mp success
  obtain ⟨found, searched, answer⟩ := bind_eq_ok.mp success
  obtain ⟨rfl, -⟩ := addWithin_eq_ok_iff.mp added
  have yes : found = true := by simpa [pure_eq_ok] using answer
  dsimp only at searched
  rw [yes, passage.into.2.2.other_end, passage.out.2.2.other] at searched
  have known := (valid.drives_lt passage.into.1 passage.into.2.2).1
  exact (Witness.Query.hasWitness_of_hasPathFrom valid known passage.apart searched).reaches
    ⟨clear, passage.start_open⟩

/-- The bypasses of a simulation are a plan. -/
theorem plan_of_simulateAvoiding (valid : g.WellFormed) (known : v < g.vertexCount)
    {hopLimit : Nat} {avoids : Nat → Bool} {gone : Nat → Prop}
    (named : ∀ x, avoids x = true ↔ gone x) {simulation : Simulation}
    (success : g.simulateAvoiding hopLimit v avoids = .ok simulation) :
    g.Plan v gone simulation.bypasses := by
  obtain ⟨needed, kept, rfl⟩ := map_eq_ok.mp success
  obtain ⟨sound, complete⟩ := Simulation.mem_keep kept
  have listed : ∀ x y, (x, y) ∈ needed.map (fun p => (p.1.id, p.2.id)) →
      ∃ edgeIn edgeOut, edgeIn.id = x ∧ edgeOut.id = y ∧
        g.Passage v edgeIn edgeOut (edgeIn.other v) (edgeOut.other v) := by
    intro x y member
    obtain ⟨⟨edgeIn, edgeOut⟩, passed, ids⟩ := List.mem_map.mp member
    cases ids
    exact ⟨edgeIn, edgeOut, rfl, rfl, passage_of_mem valid known (sound _ passed).1⟩
  constructor
  · intro b member
    obtain ⟨forth, back⟩ := Simulation.needed_of_mem_pairUp member
    obtain ⟨edgeIn, edgeOut, inId, outId, passage⟩ := listed _ _ forth
    refine ⟨edgeIn, edgeOut, _, _, inId, outId, passage, fun both => ?_⟩
    obtain ⟨edgeIn', edgeOut', inId', outId', turned⟩ := listed _ _ (back both)
    obtain rfl := valid.eq_of_id passage.out.1 turned.into.1 (outId.trans inId'.symm)
    obtain rfl := valid.eq_of_id passage.into.1 turned.out.1 (inId.trans outId'.symm)
    exact turned
  · intro edgeIn edgeOut u w passage clear
    have free : avoids u = false := by
      rw [← Bool.not_eq_true, named]
      exact clear
    rcases complete _ (passage.mem_passages valid) with member | witnessed
    · refine .inl (Simulation.covers_of_mem ?_ (passage.edge_apart valid))
      exact List.mem_map.mpr ⟨(edgeIn, edgeOut), member, rfl⟩
    · refine .inr ((reaches_of_needsShortcut valid passage free witnessed).of_subset ?_)
      rintro e x y ⟨step, start, goal⟩
      have outside : ∀ z, avoids z = false → ¬ gone z := by
        intro z clear lost
        rw [(named z).mpr lost] at clear
        cases clear
      exact ⟨step, ⟨start.2, outside x start.1⟩, ⟨goal.2, outside y goal.1⟩⟩

/-- The simulation of a member of a round is a plan for the end of the round. -/
theorem plan_of_simulateInRound (valid : g.WellFormed) {hopLimit : Nat} {members : List Nat}
    (known : v < g.vertexCount) (member : v ∈ members) {simulation : Simulation}
    (success : g.simulateInRound hopLimit v members = .ok simulation) :
    g.Plan v (· ∈ members) simulation.bypasses := by
  refine plan_of_simulateAvoiding valid known (fun x => ?_) success
  simp only [Bool.or_eq_true, beq_iff_eq, List.contains_iff_mem]
  constructor
  · rintro (rfl | listed)
    · exact member
    · exact listed
  · exact .inr

/-- A vertex that is contracted on its own is a round of its own. -/
theorem simulateInRound_singleton (g : Graph) (hopLimit v : Nat) :
    g.simulateInRound hopLimit v [v] = g.simulate hopLimit v := by
  refine congrArg (g.simulateAvoiding hopLimit v) (funext fun other => ?_)
  by_cases same : other = v <;> simp [same]

/-- The simulation of a single vertex is a plan for a round of its own. -/
theorem plan_of_simulate (valid : g.WellFormed) {hopLimit : Nat} (known : v < g.vertexCount)
    {simulation : Simulation} (success : g.simulate hopLimit v = .ok simulation) :
    g.Plan v (· ∈ [v]) simulation.bypasses := by
  rw [← simulateInRound_singleton] at success
  exact plan_of_simulateInRound valid known (List.mem_singleton.mpr rfl) success

namespace Tuned

variable {h : Graph} (tuned : g.Tuned h)
include tuned

theorem passage {edgeIn edgeOut : Edge} {u w : Nat} (passage : g.Passage v edgeIn edgeOut u w) :
    h.Passage v edgeIn edgeOut u w where
  into := tuned.live ▸ passage.into
  out := tuned.live ▸ passage.out
  start_apart := passage.start_apart
  goal_apart := passage.goal_apart
  apart := passage.apart
  start_open := (tuned.isProcessed u).trans passage.start_open
  goal_open := (tuned.isProcessed w).trans passage.goal_open

/-- A plan is not affected by priorities and depths. -/
theorem plan {gone : Nat → Prop} {bypasses : List Bypass} (plan : g.Plan v gone bypasses) :
    h.Plan v gone bypasses := by
  constructor
  · intro bypass member
    obtain ⟨edgeIn, edgeOut, u, w, inId, outId, passage, back⟩ := plan.sound bypass member
    exact ⟨edgeIn, edgeOut, u, w, inId, outId, tuned.passage passage,
      fun both => tuned.passage (back both)⟩
  · intro edgeIn edgeOut u w passage stays
    rw [tuned.live]
    simp only [tuned.isProcessed]
    exact plan.complete edgeIn edgeOut u w (tuned.symm.passage passage) stays

end Tuned

end Graph

end RoadHierarchy
