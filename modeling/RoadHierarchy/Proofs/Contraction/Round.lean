import RoadHierarchy.Proofs.Contraction.Dispatch
import RoadHierarchy.Proofs.Contraction.Step

/-! # What a round does

A round contracts its members one after the other. When their simulations are plans for the graph at
its start, the round does nothing but steps, and in the end its members are closed and no passage
over one of them is lost.
-/

namespace RoadHierarchy

namespace Graph

/-- Every passage that a bypass of `v` stands for has a live edge that is no longer. -/
def Bridged (g : Graph) (v : Nat) (bypass : Bypass) (m : Graph) : Prop :=
  ∀ edgeIn edgeOut u w, g.Passage v edgeIn edgeOut u w → bypass.Covers edgeIn.id edgeOut.id →
    ∃ e, m.live e u w ∧ e.weight ≤ edgeIn.weight + edgeOut.weight

/-- What contracting members of a round that began with `g` has done to the graph `m`. -/
structure Advances (round : Round) (g : Graph) (results : List (Nat × Simulation)) (m n : Graph) :
    Prop where
  steps : Steps round.number round.members m n
  closes : Closes round.number (results.map (·.1)) m n
  bridged : ∀ result ∈ results, ∀ bypass ∈ result.2.bypasses, g.Bridged result.1 bypass n

/-- The later graph is the earlier one after the members of a round have been contracted. -/
structure Contracts (number : Nat) (members : List Nat) (g h : Graph) : Prop where
  steps : Steps number members g h
  closes : Closes number members g h
  /-- No passage over a member is lost. -/
  bridged : ∀ v ∈ members, ∀ edgeIn edgeOut u w, g.Passage v edgeIn edgeOut u w →
    u ∉ members → w ∉ members → h.core.Reaches u w (edgeIn.weight + edgeOut.weight)

/-- No live edge joins two different members. -/
def Independent (g : Graph) (members : List Nat) : Prop :=
  ∀ e ∈ g.edges, e.removed = false → e.source ∈ members → e.target ∈ members →
    e.source = e.target

instance (g : Graph) (members : List Nat) : Decidable (g.Independent members) :=
  inferInstanceAs (Decidable (∀ e ∈ g.edges, _))

variable {g m n h : Graph} {number v : Nat} {members : List Nat}

theorem Independent.apart (independent : g.Independent members) {e : Edge} {u w : Nat}
    (step : g.live e u w) (start : u ∈ members) (goal : w ∈ members) : u = w := by
  obtain ⟨member, alive, drives⟩ := step
  rcases drives with ⟨rfl, rfl⟩ | ⟨-, rfl, rfl⟩
  · exact independent e member alive start goal
  · exact (independent e member alive goal start).symm

theorem Independent.perm {others : List Nat} (independent : g.Independent members)
    (same : members.Perm others) : g.Independent others := by
  intro e member alive source target
  exact independent e member alive (same.mem_iff.mpr source) (same.mem_iff.mpr target)

theorem Bridged.later {bypass : Bypass} (bridged : g.Bridged v bypass m) (valid : m.WellFormed)
    (steps : Steps number members m n) : g.Bridged v bypass n := by
  intro edgeIn edgeOut u w passage covers
  obtain ⟨e, step, light⟩ := bridged edgeIn edgeOut u w passage covers
  have preserves := steps.preserves valid (fun _ => True) fun _ _ => trivial
  obtain ⟨e', step', lighter⟩ := preserves.successor step
  exact ⟨e', step', lighter.trans light⟩

/-- A live edge between vertices that are unprocessed is part of the core. -/
theorem core_of_mem_unprocessed (valid : g.WellFormed) {e : Edge} {u w : Nat} (step : g.live e u w)
    (start : u ∈ g.unprocessed) (goal : w ∈ g.unprocessed) : g.core e u w :=
  ⟨step, (valid.mem_unprocessed.mp start).2, (valid.mem_unprocessed.mp goal).2⟩

theorem mem_unprocessed_of_core (valid : g.WellFormed) {e : Edge} {u w : Nat} (step : g.core e u w) :
    u ∈ g.unprocessed ∧ w ∈ g.unprocessed := by
  obtain ⟨step, start, goal⟩ := step
  obtain ⟨startKnown, goalKnown⟩ := valid.drives_lt step.1 step.2.2
  exact ⟨valid.mem_unprocessed.mpr ⟨startKnown, start⟩,
    valid.mem_unprocessed.mpr ⟨goalKnown, goal⟩⟩

/-- Between vertices that stay unprocessed, a live edge still has a live one that is no longer. -/
theorem Steps.reaches_core (valid : g.WellFormed) (steps : Steps number members g n) {e : Edge}
    {u w : Nat} (step : g.core e u w) (start : u ∉ members) (goal : w ∉ members) :
    n.core.Reaches u w e.weight := by
  obtain ⟨startOpen, goalOpen⟩ := mem_unprocessed_of_core valid step
  have preserves := steps.preserves valid (fun _ => True) fun _ _ => trivial
  obtain ⟨e', there, light⟩ := preserves.successor step.1
  exact (Network.Reaches.single (core_of_mem_unprocessed (steps.wellFormed valid) there
    (steps.mem_unprocessed valid startOpen start)
    (steps.mem_unprocessed valid goalOpen goal))).mono light

namespace Contracts

variable (valid : g.WellFormed) (contracts : Contracts number members g h)

/-- A round whose members have all been contracted by their plans loses no passage. -/
theorem of_advances {round : Round} {results : List (Nat × Simulation)} (valid : g.WellFormed)
    (planned : ∀ result ∈ results, g.Plan result.1 (· ∈ round.members) result.2.bypasses)
    (whole : results.map (·.1) = round.members) (advances : Advances round g results g n) :
    Contracts round.number round.members g n := by
  obtain ⟨steps, closes, bridged⟩ := advances
  rw [whole] at closes
  refine ⟨steps, closes, fun v member edgeIn edgeOut u w passage startStays goalStays => ?_⟩
  rw [← whole] at member
  obtain ⟨result, listed, rfl⟩ := List.mem_map.mp member
  rcases (planned result listed).complete edgeIn edgeOut u w passage startStays with
    ⟨bypass, bypassed, covers⟩ | witness
  · obtain ⟨e, step, light⟩ :=
      bridged result listed bypass bypassed edgeIn edgeOut u w passage covers
    obtain ⟨start, goal⟩ := passage.mem_unprocessed valid
    exact (Network.Reaches.single (core_of_mem_unprocessed (steps.wellFormed valid) step
      (steps.mem_unprocessed valid start startStays)
      (steps.mem_unprocessed valid goal goalStays))).mono light
  · refine .of_covers ?_ witness
    rintro e x y ⟨step, start, goal⟩
    exact steps.reaches_core valid ⟨step, start.1, goal.1⟩ start.2 goal.2

/-- In which order the members are listed does not matter. -/
theorem perm {others : List Nat} (contracts : Contracts number members g h)
    (same : members.Perm others) : Contracts number others g h := by
  obtain ⟨steps, closes, bridged⟩ := contracts
  refine ⟨Steps.perm same steps, closes.perm same, ?_⟩
  simpa only [same.mem_iff] using bridged

include valid contracts

theorem wellFormed : h.WellFormed := contracts.steps.wellFormed valid

/-- Edges have appeared or changed only between vertices that are still unprocessed. -/
theorem confined : g.Confined (· ∈ h.unprocessed) h :=
  (contracts.steps.confined valid).mono fun _ stays =>
    (contracts.closes.mem_unprocessed valid).mpr stays

/-- Between vertices that stay unprocessed, the same lengths suffice before and after the round. -/
theorem core_reaches_iff (independent : g.Independent members) {u w limit : Nat}
    (start : u ∈ h.unprocessed) (goal : w ∈ h.unprocessed) :
    h.core.Reaches u w limit ↔ g.core.Reaches u w limit := by
  have after := contracts.wellFormed valid
  have stays := fun v => contracts.closes.mem_unprocessed (v := v) valid
  constructor
  · refine Network.Reaches.of_covers fun e x y step => ?_
    have preserves := contracts.steps.preserves valid (fun v => g.isProcessed v = false)
      fun v member => (valid.mem_unprocessed.mp member).2
    have still : ∀ v, v ∈ h.unprocessed → g.isProcessed v = false :=
      fun v member => (valid.mem_unprocessed.mp ((stays v).mp member).1).2
    obtain ⟨startOpen, goalOpen⟩ := mem_unprocessed_of_core after step
    exact preserves.sound e x y (preserves.grows.everLive_of_live step.1) (still x startOpen)
      (still y goalOpen)
  · intro reaches
    refine reaches.detour (· ∈ members) ?_ ?_ ?_ ((stays u).mp start).2 ((stays w).mp goal).2
    · exact fun e x y step => independent.apart step.1
    · exact fun e x y step => contracts.steps.reaches_core valid step
    · rintro a b x v y ⟨into, startOpen, -⟩ ⟨out, -, goalOpen⟩ member startStays goalStays distinct
      refine contracts.bridged v member a b x y ⟨⟨into, out, ?_, ?_, distinct⟩, startOpen, goalOpen⟩
        startStays goalStays
      · rintro rfl
        exact startStays member
      · rintro rfl
        exact goalStays member

end Contracts

end Graph

namespace Hierarchy

open RoadHierarchy.Graph

variable {g : Graph} {round : Round} {h next last : Hierarchy} {v : Nat}

/-- The shortcut over the edges of a crossing joins its ends, which are outside of the round. -/
theorem graph_of_addShortcut {bypass : Bypass} {edgeIn edgeOut : Edge} {u w : Nat}
    (valid : h.graph.WellFormed) (crossing : h.graph.Crossing v edgeIn edgeOut u w)
    (inId : edgeIn.id = bypass.edgeIn) (outId : edgeOut.id = bypass.edgeOut)
    (success : h.addShortcut round v bypass = .ok next) :
    next.graph = h.graph.bridge v edgeIn edgeOut bypass.bothWays ∧
      u ∉ round.members ∧ w ∉ round.members := by
  obtain ⟨found, found', ⟨first, -, startStays⟩, ⟨second, -, goalStays⟩, final⟩ :=
    addShortcut_eq_ok valid success
  rw [← inId, valid.find_edge crossing.into.1] at first
  rw [← outId, valid.find_edge crossing.out.1] at second
  obtain rfl := Option.some.inj first
  obtain rfl := Option.some.inj second
  rw [crossing.into.2.2.other_end] at startStays
  rw [crossing.out.2.2.other] at goalStays
  exact ⟨final, startStays, goalStays⟩

/-- A planned bypass is bridged by a shortcut over the edges that it names. -/
theorem addShortcut_bridges {bypasses : List Bypass} {bypass : Bypass} (valid : g.WellFormed)
    (sofar : Steps round.number round.members g h.graph) (inRound : v ∈ round.members)
    (unprocessed : v ∈ h.graph.unprocessed) (plan : g.Plan v (· ∈ round.members) bypasses)
    (member : bypass ∈ bypasses) (success : h.addShortcut round v bypass = .ok next) :
    Step round.number round.members h.graph next.graph ∧ g.Bridged v bypass next.graph := by
  have before := sofar.wellFormed valid
  obtain ⟨edgeIn, edgeOut, u, w, inId, outId, passage, back⟩ := plan.sound bypass member
  have crossing := sofar.crossing valid inRound passage.toCrossing
  obtain ⟨final, startStays, goalStays⟩ := graph_of_addShortcut before crossing inId outId success
  have turned := fun both => sofar.crossing valid inRound (back both).toCrossing
  obtain ⟨start, goal⟩ := passage.mem_unprocessed valid
  have startOpen := (before.mem_unprocessed.mp (sofar.mem_unprocessed valid start startStays)).2
  have goalOpen := (before.mem_unprocessed.mp (sofar.mem_unprocessed valid goal goalStays)).2
  rw [final]
  refine ⟨.bridge ⟨⟨crossing, startOpen, goalOpen⟩, turned, inRound,
    (before.mem_unprocessed.mp unprocessed).2, startStays, goalStays⟩, ?_⟩
  intro edgeIn' edgeOut' x y other covers
  have crossed := sofar.crossing valid inRound other.toCrossing
  rcases covers with ⟨sameIn, sameOut⟩ | ⟨both, sameIn, sameOut⟩
  · obtain rfl := before.eq_of_id crossing.into.1 crossed.into.1 (inId.trans sameIn)
    obtain rfl := before.eq_of_id crossing.out.1 crossed.out.1 (outId.trans sameOut)
    have start := crossed.into.2.2.other_end.symm.trans crossing.into.2.2.other_end
    have goal := crossed.out.2.2.other.symm.trans crossing.out.2.2.other
    exact ⟨_, crossing.live_over (.inl ⟨start, goal⟩), le_rfl⟩
  · obtain rfl := before.eq_of_id crossing.into.1 crossed.out.1 (inId.trans sameIn)
    obtain rfl := before.eq_of_id crossing.out.1 crossed.into.1 (outId.trans sameOut)
    have start := crossed.into.2.2.other_end.symm.trans (turned both).into.2.2.other_end
    have goal := crossed.out.2.2.other.symm.trans (turned both).out.2.2.other
    refine ⟨_, crossing.live_over (.inr ⟨both, start, goal⟩), ?_⟩
    exact Nat.le_of_eq (Nat.add_comm _ _)

/-- Adding a shortcut does not touch the vertices, planned or not. -/
theorem addShortcut_keeps {bypass : Bypass} (valid : h.graph.WellFormed)
    (success : h.addShortcut round v bypass = .ok next) :
    next.graph.WellFormed ∧ next.graph.vertices = h.graph.vertices := by
  obtain ⟨edgeIn, edgeOut, ⟨first, -⟩, ⟨second, -⟩, final⟩ := addShortcut_eq_ok valid success
  rw [final]
  exact ⟨valid.bridge (mem_edges_iff.mpr ⟨_, first⟩) (mem_edges_iff.mpr ⟨_, second⟩),
    bridge_vertices⟩

theorem foldlM_addShortcut_keeps {bypasses : List Bypass} (valid : h.graph.WellFormed)
    (success : bypasses.foldlM (addShortcut round v) h = .ok next) :
    next.graph.WellFormed ∧ next.graph.vertices = h.graph.vertices := by
  refine foldlM_keeps (fun state : Hierarchy => state.graph.WellFormed ∧
    state.graph.vertices = h.graph.vertices) ?_ success ⟨valid, rfl⟩
  rintro bypass - before after step ⟨valid, same⟩
  obtain ⟨wellFormed, vertices⟩ := addShortcut_keeps valid step
  exact ⟨wellFormed, vertices.trans same⟩

theorem foldlM_addShortcut_bridges {bypasses planned : List Bypass} (valid : g.WellFormed)
    (sofar : Steps round.number round.members g h.graph) (inRound : v ∈ round.members)
    (unprocessed : v ∈ h.graph.unprocessed) (plan : g.Plan v (· ∈ round.members) planned)
    (part : ∀ bypass ∈ bypasses, bypass ∈ planned)
    (success : bypasses.foldlM (addShortcut round v) h = .ok next) :
    Steps round.number round.members h.graph next.graph ∧
      ∀ bypass ∈ bypasses, g.Bridged v bypass next.graph := by
  induction bypasses generalizing h with
  | nil =>
    obtain rfl := pure_eq_ok.mp success
    exact ⟨.refl, by simp⟩
  | cons bypass rest ih =>
    obtain ⟨middle, first, later⟩ := foldlM_cons_eq_ok.mp success
    obtain ⟨step, bridged⟩ := addShortcut_bridges valid sofar inRound unprocessed plan
      (part bypass (List.mem_cons_self ..)) first
    have ahead : Steps round.number round.members g middle.graph := sofar.tail step
    have open_ : v ∈ middle.graph.unprocessed := by
      rw [Graph.unprocessed, (addShortcut_keeps (sofar.wellFormed valid) first).2]
      exact unprocessed
    obtain ⟨steps, others⟩ :=
      ih ahead open_ (fun other member => part other (List.mem_cons_of_mem _ member)) later
    refine ⟨steps.head step, List.forall_mem_cons.mpr ⟨?_, others⟩⟩
    exact bridged.later (ahead.wellFormed valid) steps

/-- Closing a vertex tunes the graph and then marks the vertex. -/
theorem close_eq_ok {above : List Nat} (success : h.close round v = .ok (above, next)) :
    above = h.openNeighbors v ∧
      ∃ raised, h.graph.Tuned raised ∧ raised.markProcessed v round.number = .ok next.graph := by
  unfold close at success
  obtain ⟨vertex, -, success⟩ := bind_eq_ok.mp success
  obtain ⟨depth, -, success⟩ := bind_eq_ok.mp success
  obtain ⟨raised, lifted, success⟩ := bind_eq_ok.mp success
  obtain ⟨graph, marked, success⟩ := bind_eq_ok.mp success
  cases pure_eq_ok.mp success
  refine ⟨rfl, raised, ?_, marked⟩
  refine foldlM_keeps h.graph.Tuned (fun neighbor _ before after step sofar => ?_) lifted (.refl _)
  exact sofar.trans (tuned_of_raiseDepth step)

/-- Only an unprocessed vertex can be contracted, and then it is closed. -/
theorem closes_of_contract {result : Nat × Simulation} {above : List Nat}
    (valid : h.graph.WellFormed) (success : h.contract round result = .ok (above, next)) :
    result.1 ∈ h.graph.unprocessed ∧ Closes round.number [result.1] h.graph next.graph := by
  obtain ⟨bridged, added, closed⟩ := bind_eq_ok.mp success
  obtain ⟨wellFormed, same⟩ := foldlM_addShortcut_keeps valid added
  obtain ⟨-, raised, tuned, marked⟩ := close_eq_ok closed
  have unmarked : raised.marks = h.graph.marks := by rw [tuned.marks, marks, same, marks]
  have closes := (Closes.of_marks_eq round.number unmarked).trans
    (closes_of_markProcessed (tuned.wellFormed wellFormed) marked)
  exact ⟨closes.unprocessed.mem_iff.mpr (List.mem_append_left _ (List.mem_singleton.mpr rfl)), closes⟩

/-- A member that is contracted by its plan leaves no passage without a shortcut. -/
theorem contract_advances {result : Nat × Simulation} {above : List Nat} (valid : g.WellFormed)
    (sofar : Steps round.number round.members g h.graph) (inRound : result.1 ∈ round.members)
    (plan : g.Plan result.1 (· ∈ round.members) result.2.bypasses)
    (success : h.contract round result = .ok (above, next)) :
    Advances round g [result] h.graph next.graph := by
  obtain ⟨unprocessed, closes⟩ := closes_of_contract (sofar.wellFormed valid) success
  obtain ⟨bridged, added, closed⟩ := bind_eq_ok.mp success
  obtain ⟨steps, joined⟩ := foldlM_addShortcut_bridges valid sofar inRound unprocessed plan
    (fun _ member => member) added
  obtain ⟨-, raised, tuned, marked⟩ := close_eq_ok closed
  have finish : Steps round.number round.members bridged.graph next.graph :=
    .tail (.single (.tune tuned)) (.close inRound marked)
  refine ⟨steps.trans finish, closes, ?_⟩
  intro other member bypass listed
  obtain rfl := List.mem_singleton.mp member
  exact (joined bypass listed).later (steps.wellFormed (sofar.wellFormed valid)) finish

theorem contractAll_advances {results : List (Nat × Simulation)} {above : List Nat}
    (valid : g.WellFormed) (sofar : Steps round.number round.members g h.graph)
    (planned : ∀ result ∈ results, result.1 ∈ round.members ∧
      g.Plan result.1 (· ∈ round.members) result.2.bypasses)
    (success : contractAll round results h = .ok (above, last)) :
    Advances round g results h.graph last.graph := by
  induction results generalizing h above with
  | nil =>
    cases success
    exact ⟨.refl, .of_marks_eq _ rfl, by simp⟩
  | cons result rest ih =>
    obtain ⟨⟨lower, middle⟩, first, success⟩ := bind_eq_ok.mp success
    obtain ⟨⟨higher, final⟩, later, success⟩ := bind_eq_ok.mp success
    cases pure_eq_ok.mp success
    obtain ⟨inRound, plan⟩ := planned result (List.mem_cons_self ..)
    have here := contract_advances valid sofar inRound plan first
    have ahead : Steps round.number round.members g middle.graph := sofar.trans here.steps
    have rest := ih ahead (fun other member => planned other (List.mem_cons_of_mem _ member)) later
    refine ⟨here.steps.trans rest.steps, here.closes.trans rest.closes, ?_⟩
    refine List.forall_mem_cons.mpr ⟨fun bypass listed => ?_, rest.bridged⟩
    exact (here.bridged result (List.mem_singleton.mpr rfl) bypass listed).later
      (ahead.wellFormed valid) rest.steps

/-- A round that commits a plan for every member contracts them and loses no passage. -/
theorem applyRound_contracts {number : Nat} {results : List (Nat × Simulation)}
    {members touched : List Nat} (valid : h.graph.WellFormed) (listed : results.map (·.1) = members)
    (planned : ∀ result ∈ results, h.graph.Plan result.1 (· ∈ members) result.2.bypasses)
    (success : h.applyRound number results = .ok (touched, next)) :
    Contracts number members h.graph next.graph := by
  obtain ⟨⟨above, final⟩, contracted, success⟩ := bind_eq_ok.mp success
  cases pure_eq_ok.mp success
  have ordered := Agenda.perm_ofList (fun a b : Nat × Simulation => decide (a.1 ≤ b.1)) results
  have sorted := ordered.map (·.1)
  rw [listed] at sorted
  have plans : ∀ result ∈ Agenda.ofList (fun a b : Nat × Simulation => decide (a.1 ≤ b.1)) results,
      h.graph.Plan result.1 (· ∈ members) result.2.bypasses :=
    fun result member => planned result (ordered.mem_iff.mp member)
  simp only [← sorted.mem_iff] at plans
  have advances := contractAll_advances valid .refl (fun result member =>
    ⟨List.mem_map.mpr ⟨result, member, rfl⟩, plans result member⟩) contracted
  exact (Contracts.of_advances valid plans rfl advances).perm sorted

/-- Members of a round that have been simulated together all come with plans. -/
theorem planned_of_simulateInRound {hopLimit : Nat} {members : List Nat}
    {results : List (Nat × Simulation)} (valid : g.WellFormed)
    (known : ∀ v ∈ members, v < g.vertexCount) (listed : results.map (·.1) = members)
    (simulated : Genuine (fun v => g.simulateInRound hopLimit v members) results) :
    ∀ result ∈ results, g.Plan result.1 (· ∈ members) result.2.bypasses := by
  intro result member
  have inRound : result.1 ∈ members := listed ▸ List.mem_map.mpr ⟨result, member, rfl⟩
  exact plan_of_simulateInRound valid (known _ inRound) inRound (simulated result member)

/-- When the members of a round have been simulated together on the graph as it is, committing the
round contracts them. -/
theorem contracts_of_simulateInRound {hopLimit number : Nat} {members touched : List Nat}
    {results : List (Nat × Simulation)} (valid : h.graph.WellFormed)
    (known : ∀ v ∈ members, v < h.graph.vertexCount) (listed : results.map (·.1) = members)
    (simulated : Genuine (fun v => h.graph.simulateInRound hopLimit v members) results)
    (success : h.applyRound number results = .ok (touched, next)) :
    Contracts number members h.graph next.graph :=
  applyRound_contracts valid listed (planned_of_simulateInRound valid known listed simulated)
    success

end Hierarchy

end RoadHierarchy
