import RoadHierarchy.Proofs.Contraction.Commitment
import RoadHierarchy.Proofs.Contraction.Stages

/-! # Orders that can be followed

A fixed order is followed to its end exactly when it lists the unprocessed vertices, each once. An
entry that names no vertex is refused at once. An entry that names a vertex for the second time is
simulated once more, and its shortcuts are added once more, before the vertex turns out to have been
contracted; nothing else stops the contraction earlier, unless a sum overflows.
-/

namespace RoadHierarchy

namespace Graph

/-- What is wrong with an entry of an order: it names no vertex, or a vertex that has been
contracted, in the graph or for an earlier entry. -/
inductive Fault (g : Graph) (order : List Nat) : Nat → Failure → Prop
  | unknown {i v : Nat} : order[i]? = some v → g.vertexCount ≤ v →
      Fault g order i (.graph (.unknownInOrder v))
  | again {i v : Nat} : order[i]? = some v → v < g.vertexCount →
      g.isProcessed v = true ∨ v ∈ order.take i →
      Fault g order i (.invariant (.processedTwice v))

/-- The first entry of an order with which something is wrong. -/
structure FirstFault (g : Graph) (order : List Nat) (i : Nat) (failure : Failure) : Prop where
  fault : g.Fault order i failure
  sound : ∀ j < i, ∀ other, ¬ g.Fault order j other

variable {g : Graph} {order : List Nat} {i v : Nat}

/-- An entry with which nothing is wrong is an unprocessed vertex that is not listed before. -/
theorem fresh_of_not_fault (valid : g.WellFormed) (entry : order[i]? = some v)
    (sound : ∀ failure, ¬ g.Fault order i failure) : v ∈ g.unprocessed ∧ v ∉ order.take i := by
  have known : v < g.vertexCount := Nat.lt_of_not_le fun none => sound _ (.unknown entry none)
  have open_ : g.isProcessed v = false := by
    rw [← Bool.not_eq_true]
    exact fun done => sound _ (.again entry known (.inl done))
  exact ⟨valid.mem_unprocessed.mpr ⟨known, open_⟩,
    fun listed => sound _ (.again entry known (.inr listed))⟩

theorem not_fault_of_fresh (valid : g.WellFormed) (entry : order[i]? = some v)
    (open_ : v ∈ g.unprocessed) (fresh : v ∉ order.take i) (failure : Failure) :
    ¬ g.Fault order i failure := by
  obtain ⟨known, flag⟩ := valid.mem_unprocessed.mp open_
  rintro (⟨there, none⟩ | ⟨there, -, before⟩)
  · obtain rfl := Option.some.inj (entry.symm.trans there)
    exact Nat.not_le_of_lt known none
  · obtain rfl := Option.some.inj (entry.symm.trans there)
    rcases before with done | listed
    · rw [flag] at done
      cases done
    · exact fresh listed

/-- Nothing is wrong as long as different unprocessed vertices are listed. -/
theorem sound_iff (valid : g.WellFormed) : (∀ j < i, ∀ failure, ¬ g.Fault order j failure) ↔
    (order.take i).Nodup ∧ ∀ v ∈ order.take i, v ∈ g.unprocessed := by
  induction i with
  | zero => simp
  | succ i ih =>
    rw [Nat.forall_lt_succ_right, ih, List.take_add_one]
    cases entry : order[i]? with
    | none =>
      have sound : ∀ failure, ¬ g.Fault order i failure := by
        rintro failure (⟨other, -⟩ | ⟨other, -, -⟩) <;> simp [entry] at other
      simp [sound]
    | some v =>
      rw [Option.toList_some, List.nodup_append', List.forall_mem_append, List.forall_mem_singleton,
        List.disjoint_singleton]
      constructor
      · rintro ⟨⟨single, listed⟩, sound⟩
        obtain ⟨open_, fresh⟩ := fresh_of_not_fault valid entry sound
        exact ⟨⟨single, List.nodup_singleton v, fresh⟩, listed, open_⟩
      · rintro ⟨⟨single, -, fresh⟩, listed, open_⟩
        refine ⟨⟨single, listed⟩, not_fault_of_fresh valid entry open_ fresh⟩

/-- An order of the right length with which nothing is wrong lists the unprocessed vertices. -/
theorem exists_firstFault (valid : g.WellFormed) (total : order.length = g.unprocessed.length)
    (other : ¬ order.Perm g.unprocessed) : ∃ i failure, g.FirstFault order i failure := by
  have wrong : ∃ i failure, g.Fault order i failure := by
    by_contra sound
    push Not at sound
    obtain ⟨single, listed⟩ := (sound_iff valid).mp fun j (_ : j < order.length) => sound j
    rw [List.take_length] at single listed
    exact other ((single.subperm listed).perm_of_length_le total.ge)
  classical
  obtain ⟨failure, fault⟩ := Nat.find_spec wrong
  refine ⟨Nat.find wrong, failure, fault, fun j earlier other there => ?_⟩
  exact Nat.find_min wrong earlier ⟨other, there⟩

end Graph

namespace Strategy

open RoadHierarchy.Hierarchy

variable {s : Settings} {g : Graph} {h : Hierarchy} {sets : List (List Nat)} {v : Nat}

/-- The stages of an order are what its fold goes through. -/
theorem Stage.foldlM_eq_ok {order : List Nat} (stage : (inOrder order).Stage s g sets h) :
    ∃ first : List Nat, first.map ([·]) = sets ∧
      first.zipIdx.foldlM (contractNext s) (start g) = .ok h := by
  induction stage with
  | opening _ begins => exact ⟨[], rfl, congrArg Except.ok begins.2⟩
  | round _ performs ih =>
    obtain ⟨first, rfl, folded⟩ := ih
    obtain ⟨v, -, rfl, contracted⟩ := performs
    refine ⟨first ++ [v], List.map_append, ?_⟩
    rw [List.length_map] at contracted
    rw [List.zipIdx_append, List.foldlM_append, bind_eq_ok, Nat.zero_add]
    exact ⟨_, folded, foldlM_cons_eq_ok.mpr ⟨_, contracted, rfl⟩⟩

/-- If an order has been followed to its end, the entry that comes next has been contracted. -/
theorem Stage.exists_contractNext_of_buildInOrder {first later : List Nat} {last : Hierarchy}
    (stage : (inOrder (first ++ v :: later)).Stage s g (first.map ([·])) h)
    (success : buildInOrder s (first ++ v :: later) g = .ok last) :
    ∃ next, h.contractNext s (v, first.length) = .ok next := by
  obtain ⟨entries, same, folded⟩ := stage.foldlM_eq_ok
  obtain rfl := List.map_injective_iff.mpr List.singleton_injective same
  obtain ⟨-, -, final, folds, -⟩ := buildInOrder_eq_ok.mp success
  rw [List.zipIdx_append, List.foldlM_append, folded] at folds
  obtain ⟨next, contracted, -⟩ := foldlM_cons_eq_ok.mp folds
  rw [Nat.zero_add] at contracted
  exact ⟨next, contracted⟩

end Strategy

namespace Hierarchy

open RoadHierarchy.Graph RoadHierarchy.Strategy

/-- Every entry of the order that is unprocessed in its turn can be contracted then, unless there is
such a cause. -/
def Follows (s : Settings) (g : Graph) (order : List Nat) (cause : Failure → Prop) : Prop :=
  ∀ (first : List Nat) (v : Nat) (later : List Nat) (h : Hierarchy), first ++ v :: later = order →
    (inOrder order).Stage s g (first.map ([·])) h → v ∈ h.graph.unprocessed →
      Returns cause (fun _ => True) (h.contractNext s (v, first.length))

variable {s : Settings} {g : Graph} {h : Hierarchy} {v number : Nat}

/-- One step of the fixed order comes to what the contraction of its vertex comes to, once the
vertex has been simulated. -/
theorem contractNext_comes {cause : Failure → Prop} {kind : Hierarchy → Prop}
    (valid : h.graph.WellFormed) (known : v < h.graph.vertexCount)
    (simulates : Returns cause (fun _ => True) (h.graph.simulate s.searchSpaceHopLimit v))
    (contracts : ∀ (start : Hierarchy) (simulation : Simulation), h.graph.Reranked start.graph →
      start.graph.Plan v (· ∈ [v]) simulation.bypasses →
      Returns cause (fun outcome => kind outcome.2)
        (start.contract ⟨number, [v]⟩ (v, simulation))) :
    Returns cause kind (h.contractNext s (v, number)) := by
  unfold contractNext
  dsimp only
  rw [if_neg (Nat.not_le_of_lt known)]
  apply simulates.bind
  intro simulation simulated _
  obtain ⟨noted, set⟩ := exists_updateVertex known fun old => { old with priority := number.toFloat }
  apply Returns.after set
  have reranked : h.graph.Reranked noted := .of_setPriority set
  let start : Hierarchy := Hierarchy.countSimulations { h with graph := noted } 1
  have planned := reranked.toTuned.plan (plan_of_simulate valid known simulated)
  have all : Returns cause (fun outcome => kind outcome.2)
      (contractAll ⟨number, [v]⟩ [(v, simulation)] start) :=
    (contracts start simulation reranked planned).bind fun _ _ given => given
  have applied : Returns cause (fun outcome => kind outcome.2)
      (start.applyRound number [(v, simulation)]) := all.bind fun _ _ given => given
  exact applied.bind fun _ _ given => given

/-- A vertex that has not been contracted can be contracted as a round of its own, unless there is
a cause not to. -/
theorem contractNext_returns {cause : Failure → Prop} (valid : h.graph.WellFormed)
    (unprocessed : v ∈ h.graph.unprocessed)
    (simulates : Returns cause (fun _ => True) (h.graph.simulate s.searchSpaceHopLimit v))
    (weighs : h.graph.Weighs cause v)
    (deepens : Returns cause (fun _ => True) (addDepth (h.graph.depth v) 1)) :
    Returns cause (fun _ => True) (h.contractNext s (v, number)) := by
  have known := (valid.mem_unprocessed.mp unprocessed).1
  apply contractNext_comes valid known simulates
  intro start simulation reranked plan
  rw [← reranked.unprocessed] at unprocessed
  rw [← reranked.depth v known] at deepens
  have before : start.graph.Weighs cause v := fun edgeIn edgeOut u w passage =>
    weighs edgeIn edgeOut u w (reranked.symm.passage passage)
  have inRound : v ∈ [v] := List.mem_singleton.mpr rfl
  have contracted : Returns cause (fun outcome => ∀ w ∈ outcome.1, w < start.graph.vertexCount)
      (start.contract ⟨number, [v]⟩ (v, simulation)) :=
    contract_returns (reranked.wellFormed valid) (independent_singleton start.graph v) .refl inRound
      plan unprocessed before deepens
  exact contracted.mono fun _ _ _ => trivial

/-- Only an overflow can keep a vertex from being contracted as a round of its own. -/
theorem contractNext_overflows (valid : h.graph.WellFormed)
    (unprocessed : v ∈ h.graph.unprocessed) :
    Returns Overflows (fun _ => True) (h.contractNext s (v, number)) :=
  contractNext_returns valid unprocessed (simulateAvoiding_returns _ _ v (· == v))
    (weighs_overflows _ v) ((addWithin_returns 32 _ 1).mono fun _ _ _ => trivial)

theorem follows_overflows (valid : g.WellFormed) (order : List Nat) :
    Follows s g order Overflows :=
  fun _ _ _ _ _ stage open_ => contractNext_overflows (stage.wellFormed valid) open_

theorem contractNext_unknown (unknown : h.graph.vertexCount ≤ v) :
    h.contractNext s (v, number) = .error (.graph (.unknownInOrder v)) := by
  unfold contractNext
  dsimp only
  rw [if_pos unknown]
  rfl

theorem markProcessed_again (known : v < g.vertexCount) (processed : g.isProcessed v = true) :
    g.markProcessed v number = .error (.invariant (.processedTwice v)) := by
  unfold markProcessed requireVertex
  rw [if_pos known, processed]
  rfl

/-- A vertex that has been contracted is not closed again. -/
theorem close_again {round : Round} (valid : h.graph.WellFormed) (known : v < h.graph.vertexCount)
    (processed : h.graph.isProcessed v = true) :
    Returns (OverflowsOr (.invariant (.processedTwice v))) (fun _ => False) (h.close round v) := by
  obtain ⟨vertex, found⟩ := exists_vertex known
  unfold close
  apply Returns.after found
  apply ((addWithin_returns 32 vertex.depth 1).orElse _).bind
  intro depth _ _
  obtain ⟨raised, tuned, raises⟩ := exists_raise valid known depth
  apply Returns.after raises
  rw [← tuned.vertexCount] at known
  rw [← tuned.isProcessed] at processed
  rw [markProcessed_again known processed]
  exact .inr rfl

/-- Shortcuts over a vertex leave the edges at it alone, whether it has been contracted or not. -/
theorem bridges_again {bypasses : List Bypass} (valid : h.graph.WellFormed)
    (plan : h.graph.Plan v (· ∈ [v]) bypasses) :
    Returns Overflows
      (fun bridged : Hierarchy => bridged.graph.WellFormed ∧
        bridged.graph.vertices = h.graph.vertices)
      (bypasses.foldlM (addShortcut ⟨number, [v]⟩ v) h) := by
  have bridges : Returns Overflows
      (fun state : Hierarchy => state.graph.WellFormed ∧ state.graph.vertices = h.graph.vertices ∧
        h.graph.Grows state.graph ∧ h.graph.Confined (· ≠ v) state.graph)
      (bypasses.foldlM (addShortcut ⟨number, [v]⟩ v) h) := by
    apply Returns.foldlM
    · rintro bypass member state ⟨before, same, grows, confined⟩
      obtain ⟨edgeIn, edgeOut, u, w, inId, outId, passage, -⟩ := plan.sound bypass member
      have into := confined.live_of_outside grows passage.into (.inr fun apart => apart rfl)
      have out := confined.live_of_outside grows passage.out (.inl fun apart => apart rfl)
      have crossing : state.graph.Crossing v edgeIn edgeOut u w :=
        ⟨into, out, passage.start_apart, passage.goal_apart, passage.apart⟩
      refine (addShortcut_of_crossing before crossing inId outId ?_ ?_
        (addWithin_returns 64 _ _)).mono ?_
      · rw [List.mem_singleton]
        exact passage.start_apart
      · rw [List.mem_singleton]
        exact passage.goal_apart
      · intro next added _
        obtain ⟨wellFormed, vertices⟩ := addShortcut_keeps before added
        obtain ⟨final, -⟩ := graph_of_addShortcut before crossing inId outId added
        refine ⟨wellFormed, vertices.trans same, ?_, ?_⟩
        · exact grows.trans (final ▸ Grows.bridge)
        · rw [final]
          exact confined.trans
            (crossing.confined before passage.start_apart passage.goal_apart)
    · exact ⟨valid, rfl, .of_edges_eq rfl rfl, .of_edges_eq rfl⟩
  exact bridges.mono fun _ _ kept => ⟨kept.1, kept.2.1⟩

/-- A vertex that has been contracted is not contracted again. By then its shortcuts have been
added. -/
theorem contract_again {simulation : Simulation} (valid : h.graph.WellFormed)
    (known : v < h.graph.vertexCount) (processed : h.graph.isProcessed v = true)
    (plan : h.graph.Plan v (· ∈ [v]) simulation.bypasses) :
    Returns (OverflowsOr (.invariant (.processedTwice v))) (fun _ => False)
      (h.contract ⟨number, [v]⟩ (v, simulation)) := by
  apply ((bridges_again valid plan).orElse _).bind
  rintro bridged - ⟨after, same⟩
  apply close_again after
  · rwa [vertexCount, same]
  · rwa [isProcessed, vertex?, vertexCount, same]

theorem contractNext_again (valid : h.graph.WellFormed) (known : v < h.graph.vertexCount)
    (processed : h.graph.isProcessed v = true) :
    Returns (OverflowsOr (.invariant (.processedTwice v))) (fun _ => False)
      (h.contractNext s (v, number)) := by
  apply contractNext_comes valid known
    ((simulateAvoiding_returns h.graph s.searchSpaceHopLimit v (· == v)).orElse _)
  intro start simulation reranked plan
  rw [← reranked.vertexCount] at known
  rw [← reranked.isProcessed] at processed
  exact contract_again (reranked.wellFormed valid) known processed plan

/-- An entry of an order can be contracted after different unprocessed vertices if it is another one
of them. -/
theorem foldlM_contractNext_returns {cause : Failure → Prop} {order done rest : List Nat}
    (split : done ++ rest = order) (valid : g.WellFormed) (usable : s.validate = .ok ())
    (total : order.length = g.unprocessed.length) (single : done.Nodup)
    (unprocessed : ∀ v ∈ done, v ∈ g.unprocessed) (follows : Follows s g order cause) :
    Returns cause (fun h => (inOrder order).Stage s g (done.map ([·])) h)
      (done.zipIdx.foldlM (contractNext s) (start g)) := by
  induction done using List.reverseRecOn generalizing rest with
  | nil => exact .opening usable ⟨total, rfl⟩
  | append_singleton done v ih =>
    rw [List.append_assoc] at split
    obtain ⟨distinct, -, fresh⟩ := List.nodup_append'.mp single
    obtain ⟨earlier, here⟩ := List.forall_mem_append.mp unprocessed
    rw [List.zipIdx_append, List.foldlM_append]
    apply (ih split distinct earlier).bind
    intro h _ stage
    have member := (perm_of_stage valid stage).mem_iff.mp (here v (List.mem_singleton.mpr rfl))
    have left : v ∈ h.graph.unprocessed :=
      (List.mem_append.mp member).resolve_left (List.disjoint_singleton.mp fresh)
    rw [List.zipIdx_singleton, Nat.zero_add, List.foldlM_cons]
    apply (follows done v rest h split stage left).bind
    intro next contracted _
    have performs : (inOrder order).Performs s (done.map ([·])).length [v] h next := by
      refine ⟨v, ?_, rfl, ?_⟩
      · rw [List.length_map, ← split, List.getElem?_append_right le_rfl, Nat.sub_self]
        rfl
      · rw [List.length_map]
        simpa using contracted
    rw [List.map_append]
    exact stage.round performs

/-- An entry with which something is wrong does not get contracted. -/
theorem contractNext_fault {order : List Nat} {i : Nat} {failure : Failure} (valid : g.WellFormed)
    (stage : (inOrder order).Stage s g ((order.take i).map ([·])) h)
    (fault : g.Fault order i failure) : ∃ v, order[i]? = some v ∧
      Returns (OverflowsOr failure) (fun _ => False) (h.contractNext s (v, i)) := by
  have size : h.graph.vertexCount = g.vertexCount :=
    ((stage.run valid).preserves valid).grows.vertexCount
  cases fault with
  | @unknown v entry none =>
    refine ⟨v, entry, ?_⟩
    rw [contractNext_unknown (size.symm ▸ none)]
    exact .inr rfl
  | @again v entry known before =>
    refine ⟨v, entry, ?_⟩
    have contracted := perm_of_stage valid stage
    have gone : v ∉ h.graph.unprocessed := by
      intro left
      rcases before with done | listed
      · have open_ := contracted.mem_iff.mpr (List.mem_append_right _ left)
        rw [(valid.mem_unprocessed.mp open_).2] at done
        cases done
      · have single := contracted.nodup_iff.mp valid.unprocessed_nodup
        exact List.disjoint_of_nodup_append single listed left
    have here : v < h.graph.vertexCount := size.symm ▸ known
    have after := stage.wellFormed valid
    apply contractNext_again after here
    rw [← Bool.not_eq_false]
    exact fun open_ => gone (after.mem_unprocessed.mpr ⟨here, open_⟩)

variable {order : List Nat}

/-- The first entry with which something is wrong stops the contraction. -/
theorem buildInOrder_stops {i : Nat} {failure : Failure} (valid : g.WellFormed)
    (usable : s.validate = .ok ()) (total : order.length = g.unprocessed.length)
    (first : g.FirstFault order i failure) :
    Returns (OverflowsOr failure) (fun _ => False) (buildInOrder s order g) := by
  obtain ⟨single, listed⟩ := (sound_iff valid).mp first.sound
  have begins := foldlM_contractNext_returns (List.take_append_drop i order) valid usable total
    single listed (follows_overflows valid order)
  have folds : Returns (OverflowsOr failure) (fun _ => False)
      (order.zipIdx.foldlM (contractNext s) (start g)) := by
    rw [← List.take_append_drop i order, List.zipIdx_append, List.foldlM_append]
    apply (begins.orElse failure).bind
    intro h _ stage
    obtain ⟨v, entry, stops⟩ := contractNext_fault valid stage first.fault
    obtain ⟨inside, rfl⟩ := List.getElem?_eq_some_iff.mp entry
    have place : 0 + (order.take i).length = i := by
      rw [List.length_take]
      omega
    rw [List.drop_eq_getElem_cons inside, place, List.zipIdx_cons, List.foldlM_cons]
    exact stops.bind fun _ _ => False.elim
  rw [buildInOrder_eq usable total]
  exact folds.bind fun _ _ => False.elim

/-- Each unprocessed vertex, listed once in any order, is contracted in its turn, unless there is a
cause not to contract one of them. -/
theorem buildInOrder_returns {cause : Failure → Prop} (valid : g.WellFormed)
    (usable : s.validate = .ok ()) (whole : order.Perm g.unprocessed)
    (follows : Follows s g order cause) :
    Returns cause (fun _ => True) (buildInOrder s order g) := by
  have folds := foldlM_contractNext_returns (List.append_nil order) valid usable whole.length_eq
    (whole.nodup_iff.mpr valid.unprocessed_nodup) (fun v member => whole.mem_iff.mp member) follows
  rw [buildInOrder_eq usable whole.length_eq]
  exact folds.bind fun _ _ _ => trivial

/-- An order that has been followed lists each unprocessed vertex once, at the place of its
round. -/
theorem perm_of_buildInOrder (valid : g.WellFormed) (success : buildInOrder s order g = .ok h) :
    order.Perm g.unprocessed ∧ ∀ i v, order[i]? = some v → h.graph.round? v = some i := by
  obtain ⟨-, last, stage, complete, rfl⟩ := stage_of_order valid success
  have contracted := perm_of_stage valid stage
  rw [complete, List.append_nil] at contracted
  refine ⟨contracted.symm, fun i v entry => ?_⟩
  have found : (order.map ([·]))[i]? = some [v] := by
    rw [List.getElem?_map, entry]
    rfl
  have given := ((stage.run valid).round?_of_mem valid found (List.mem_singleton.mpr rfl)).2
  rwa [Nat.zero_add] at given

/-- A fixed order is followed to its end exactly when it lists the unprocessed vertices, each once,
and then its entries are contracted in rounds that count them. An order of another length is
refused; otherwise the first entry that names no vertex, or a vertex that has been contracted in the
input or for an earlier entry, is what the contraction fails for. There is such an entry in every
other order of the right length. -/
theorem buildInOrder_outcome (reachable : g.Reachable) (usable : s.validate = .ok ())
    (order : List Nat) (room : buildInOrder s order g ≠ .error .overflow) :
    ((∃ h, buildInOrder s order g = .ok h) ↔ order.Perm g.unprocessed) ∧
      (∀ h, buildInOrder s order g = .ok h →
        ∀ i v, order[i]? = some v → h.graph.round? v = some i) ∧
      (order.length ≠ g.unprocessed.length → buildInOrder s order g =
        .error (.settings (.orderLength order.length g.unprocessed.length))) ∧
      (order.length = g.unprocessed.length →
        (∀ i failure, g.FirstFault order i failure → buildInOrder s order g = .error failure) ∧
          (¬ order.Perm g.unprocessed → ∃ i failure, g.FirstFault order i failure)) := by
  have valid := reachable.wellFormed
  refine ⟨⟨?_, fun whole => ?_⟩, ?_, fun other => ?_, fun total => ⟨fun i failure first => ?_, ?_⟩⟩
  · rintro ⟨h, success⟩
    exact (perm_of_buildInOrder valid success).1
  · have returns := buildInOrder_returns valid usable whole (follows_overflows valid order)
    obtain ⟨h, success, -⟩ := returns.exists_ok fun failure overflows => overflows ▸ room
    exact ⟨h, success⟩
  · exact fun h success => (perm_of_buildInOrder valid success).2
  · unfold buildInOrder
    rw [usable]
    dsimp only [bind, Except.bind]
    rw [if_pos other]
    rfl
  · have stops := buildInOrder_stops valid usable total first
    cases outcome : buildInOrder s order g with
    | ok h =>
      rw [outcome] at stops
      exact stops.elim
    | error cause =>
      rw [outcome] at stops room
      rcases stops with rfl | rfl
      · exact (room rfl).elim
      · rfl
  · exact exists_firstFault valid total

/-- Of three junctions in a row the middle one is listed twice: the second time, it is refused. -/
theorem buildInOrder_outcome_row : ∃ g, Graph.ofExtract
      ⟨List.replicate 3 ⟨0, 0⟩, [⟨0, 1, 1, true⟩, ⟨1, 2, 1, true⟩]⟩ = .ok g ∧
    buildInOrder {} [1, 0, 1] g = .error (.invariant (.processedTwice 1)) := by
  have computed : (do
      let g ← Graph.ofExtract
        ⟨List.replicate 3 ⟨0, 0⟩, [⟨0, 1, 1, true⟩, ⟨1, 2, 1, true⟩]⟩
      Settings.validate {}
      let overflown := match buildInOrder {} [1, 0, 1] g with
        | .error .overflow => true
        | _ => false
      return (g.vertexCount, g.unprocessed, overflown)).toOption =
      some (3, [0, 1, 2], false) := by
    decide +kernel
  obtain ⟨g, extracted, computed⟩ := bind_eq_ok.mp (toOption_eq_some.mp computed)
  obtain ⟨_, usable, computed⟩ := bind_eq_ok.mp computed
  have values := pure_eq_ok.mp computed
  simp only [Prod.mk.injEq] at values
  obtain ⟨size, left, overflown⟩ := values
  have room : buildInOrder {} [1, 0, 1] g ≠ .error .overflow := by
    intro overflows
    rw [overflows] at overflown
    cases overflown
  have reachable := Graph.reachable_ofExtract extracted
  have first : g.FirstFault [1, 0, 1] 2 (.invariant (.processedTwice 1)) := by
    refine ⟨.again rfl (by omega) (.inr (by decide)), (sound_iff reachable.wellFormed).mpr ?_⟩
    rw [left]
    decide
  obtain ⟨-, -, -, stops⟩ := buildInOrder_outcome reachable usable [1, 0, 1] room
  rw [left] at stops
  exact ⟨g, extracted, (stops rfl).1 2 _ first⟩

end Hierarchy

end RoadHierarchy
