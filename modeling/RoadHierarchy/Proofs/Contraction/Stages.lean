import RoadHierarchy.Contraction.Hierarchy
import RoadHierarchy.Proofs.Contraction.Run
import RoadHierarchy.Proofs.Contraction.Selection
import RoadHierarchy.Proofs.Graph.Surroundings

/-! # The stages of building a hierarchy

Both strategies begin with the input and perform round after round. The hierarchies in between are
the stages of a build, whether it succeeds in the end or not. At every stage, what has been done to
the input is a run.
-/

namespace RoadHierarchy

/-- What chooses the vertices of each round. -/
inductive Strategy where
  /-- The priorities, found by workers who take these turns. -/
  | byPriority (schedule : Schedule)
  /-- A given order, one vertex a round. -/
  | inOrder (order : List Nat)

namespace Strategy

/-- The rounds begin with this hierarchy. -/
def Begins (s : Settings) (g : Graph) (h : Hierarchy) : Strategy → Prop
  | byPriority schedule => (Hierarchy.start g).rank s (schedule 0) g.unprocessed = .ok h
  | inOrder order => order.length = g.unprocessed.length ∧ Hierarchy.start g = h

/-- The round of this number has contracted these vertices. The priority strategy has yet to rank
their neighbours. -/
def Commits (s : Settings) (number : Nat) (members : List Nat) (h next : Hierarchy) :
    Strategy → Prop
  | byPriority schedule => h.graph.independentSet s.kNeighborhood = members ∧ members ≠ [] ∧
      ∃ results touched, h.graph.simulateRound s (schedule (2 * number + 1)) members = .ok results ∧
        (h.countSimulations results.length).applyRound number results = .ok (touched, next)
  | inOrder order => ∃ v, order[number]? = some v ∧ [v] = members ∧
      h.contractNext s (v, number) = .ok next

/-- The round of this number contracts these vertices, and all is ready for the next round. -/
def Performs (s : Settings) (number : Nat) (members : List Nat) (h next : Hierarchy) :
    Strategy → Prop
  | byPriority schedule => h.graph.independentSet s.kNeighborhood = members ∧ members ≠ [] ∧
      h.step s schedule number members = .ok next
  | inOrder order => (inOrder order).Commits s number members h next

/-- The hierarchy is reached from the graph by rounds that have contracted these vertices. -/
inductive Stage (s : Settings) (g : Graph) (strategy : Strategy) :
    List (List Nat) → Hierarchy → Prop
  | opening {h : Hierarchy} : s.validate = .ok () → strategy.Begins s g h → Stage s g strategy [] h
  | round {h next : Hierarchy} {sets : List (List Nat)} {members : List Nat} :
      Stage s g strategy sets h → strategy.Performs s sets.length members h next →
      Stage s g strategy (sets ++ [members]) next

end Strategy

namespace Hierarchy

open RoadHierarchy.Graph

variable {s : Settings} {h next last : Hierarchy}

theorem reranked_of_prioritize {g later : Graph} {result : Nat × Simulation}
    (success : prioritize s g result = .ok later) : g.Reranked later := by
  obtain ⟨vertex, -, set⟩ := bind_eq_ok.mp success
  exact .of_setPriority set

theorem reranked_of_rank {turns vertices : List Nat}
    (success : h.rank s turns vertices = .ok next) :
    h.graph.Reranked next.graph := by
  obtain ⟨results, -, success⟩ := bind_eq_ok.mp success
  obtain ⟨graph, ranked, success⟩ := bind_eq_ok.mp success
  obtain rfl := pure_eq_ok.mp success
  refine foldlM_keeps h.graph.Reranked (fun result _ before after step sofar => ?_) ranked (.refl _)
  exact sofar.trans (reranked_of_prioritize step)

/-- One step of the fixed order notes a priority and commits its vertex as a round of its own. -/
theorem contractNext_eq_ok {v round : Nat} (success : h.contractNext s (v, round) = .ok next) :
    v < h.graph.vertexCount ∧ ∃ simulation,
      h.graph.simulate s.searchSpaceHopLimit v = .ok simulation ∧
      ∃ (start : Hierarchy) (touched : List Nat),
        h.graph.setPriority v round.toFloat = .ok start.graph ∧
          start.applyRound round [(v, simulation)] = .ok (touched, next) := by
  unfold contractNext at success
  dsimp only at success
  split at success
  · cases success
  · next known =>
    obtain ⟨simulation, simulated, success⟩ := bind_eq_ok.mp success
    obtain ⟨graph, set, success⟩ := bind_eq_ok.mp success
    obtain ⟨⟨touched, final⟩, applied, success⟩ := bind_eq_ok.mp success
    obtain rfl := pure_eq_ok.mp success
    exact ⟨Nat.lt_of_not_le known, simulation, simulated, _, touched, set, applied⟩

theorem independent_singleton (g : Graph) (v : Nat) : g.Independent [v] := by
  intro e _ _ source target
  rw [List.mem_singleton.mp source, List.mem_singleton.mp target]

end Hierarchy

/-- Settings that can be used have workers and batches for them, and separate the members of a
round. -/
theorem Settings.positive_of_validate {s : Settings} (usable : s.validate = .ok ()) :
    0 < s.numThreads ∧ 0 < s.kNeighborhood ∧ 0 < s.batchSize := by
  unfold Settings.validate Settings.flaw? at usable
  split at usable
  · cases usable
  · split at usable
    · cases usable
    · split at usable
      · cases usable
      · omega

namespace Strategy

open RoadHierarchy.Hierarchy RoadHierarchy.Graph

variable {s : Settings} {g : Graph} {h next : Hierarchy} {strategy : Strategy} {number : Nat}
  {members : List Nat} {sets : List (List Nat)}

theorem Begins.reranked (begins : strategy.Begins s g h) : g.Reranked h.graph := by
  cases strategy with
  | byPriority schedule =>
    have reranked := reranked_of_rank begins
    exact reranked
  | inOrder order =>
    obtain ⟨-, rfl⟩ := begins
    exact .refl g

theorem Commits.ne_nil (commits : strategy.Commits s number members h next) : members ≠ [] := by
  cases strategy with
  | byPriority schedule => exact commits.2.1
  | inOrder order =>
    obtain ⟨v, -, rfl, -⟩ := commits
    exact List.cons_ne_nil v []

/-- How a round is committed: in a graph in which at most priorities have been noted since then, by
the simulations of its members, which are independent. -/
structure Committing (s : Settings) (number : Nat) (members : List Nat) (h start next : Hierarchy)
    (results : List (Nat × Simulation)) (touched : List Nat) : Prop where
  reranked : h.graph.Reranked start.graph
  independent : start.graph.Independent members
  known : ∀ v ∈ members, v < h.graph.vertexCount
  listed : results.map (·.1) = members
  genuine : Genuine (fun v => h.graph.simulateInRound s.searchSpaceHopLimit v members) results
  applied : start.applyRound number results = .ok (touched, next)

/-- What a round commits has been simulated for the whole of it. -/
theorem Commits.exists_committing (commits : strategy.Commits s number members h next)
    (positive : 0 < s.kNeighborhood) (valid : h.graph.WellFormed) :
    ∃ start results touched, Committing s number members h start next results touched := by
  cases strategy with
  | byPriority schedule =>
    obtain ⟨rfl, -, results, touched, dispatched, applied⟩ := commits
    obtain ⟨listed, genuine⟩ := dispatch_eq_ok dispatched
    exact ⟨h.countSimulations results.length, results, touched, .refl _,
      independent_independentSet valid positive, fun _ => lt_of_mem_independentSet valid, listed,
      genuine, applied⟩
  | inOrder order =>
    obtain ⟨v, -, rfl, contracted⟩ := commits
    obtain ⟨known, simulation, simulated, start, touched, set, applied⟩ :=
      contractNext_eq_ok contracted
    rw [← simulateInRound_singleton] at simulated
    refine ⟨start, [(v, simulation)], touched, .of_setPriority set,
      independent_singleton start.graph v, ?_, rfl, fun result member => ?_, applied⟩
    · intro w member
      rwa [List.mem_singleton.mp member]
    · rwa [List.mem_singleton.mp member]

namespace Committing

variable {start : Hierarchy} {results : List (Nat × Simulation)} {touched : List Nat}
  (committing : Committing s number members h start next results touched)
  (valid : h.graph.WellFormed)
include committing valid

theorem wellFormed : start.graph.WellFormed := committing.reranked.wellFormed valid

/-- What is committed are plans. -/
theorem planned : ∀ result ∈ results,
    start.graph.Plan result.1 (· ∈ members) result.2.bypasses := fun result member =>
  committing.reranked.toTuned.plan (planned_of_simulateInRound valid committing.known
    committing.listed committing.genuine result member)

theorem contracts : Contracts number members start.graph next.graph :=
  applyRound_contracts (wellFormed committing valid) committing.listed (planned committing valid)
    committing.applied

end Committing

/-- A round contracts independent members, and before it the graph is at most tuned. -/
theorem Commits.contracts (commits : strategy.Commits s number members h next)
    (positive : 0 < s.kNeighborhood) (valid : h.graph.WellFormed) :
    ∃ start, h.graph.Tuned start ∧ start.Independent members ∧
      Contracts number members start next.graph := by
  obtain ⟨start, results, touched, committing⟩ := commits.exists_committing positive valid
  exact ⟨start.graph, committing.reranked.toTuned, committing.independent,
    committing.contracts valid⟩

theorem Commits.run (commits : strategy.Commits s number members h next)
    (positive : 0 < s.kNeighborhood) (valid : h.graph.WellFormed) :
    Run number h.graph [members] next.graph := by
  obtain ⟨start, before, independent, contracts⟩ := commits.contracts positive valid
  exact .round before independent contracts (.done (.refl _))

/-- What a round does after its vertices have been contracted is to note priorities. -/
theorem Performs.commits (performs : strategy.Performs s number members h next) :
    ∃ committed, strategy.Commits s number members h committed ∧
      committed.graph.Reranked next.graph := by
  cases strategy with
  | byPriority schedule =>
    obtain ⟨chosen, some, stepped⟩ := performs
    obtain ⟨results, dispatched, success⟩ := bind_eq_ok.mp stepped
    obtain ⟨⟨touched, committed⟩, applied, ranked⟩ := bind_eq_ok.mp success
    exact ⟨committed, ⟨chosen, some, results, touched, dispatched, applied⟩,
      reranked_of_rank ranked⟩
  | inOrder order => exact ⟨next, performs, .refl _⟩

theorem Performs.run (performs : strategy.Performs s number members h next)
    (positive : 0 < s.kNeighborhood) (valid : h.graph.WellFormed) :
    Run number h.graph [members] next.graph := by
  obtain ⟨committed, commits, reranked⟩ := performs.commits
  exact (commits.run positive valid).append (.done reranked.toTuned)

/-- A round leaves fewer vertices, by as many as it contracts. -/
theorem Performs.unprocessed_length (performs : strategy.Performs s number members h next)
    (positive : 0 < s.kNeighborhood) (valid : h.graph.WellFormed) :
    h.graph.unprocessed.length = members.length + next.graph.unprocessed.length := by
  have counted := (performs.run positive valid).unprocessed.length_eq
  rwa [List.flatten_singleton, List.length_append] at counted

namespace Stage

theorem usable (stage : strategy.Stage s g sets h) : s.validate = .ok () := by
  induction stage with
  | opening usable _ => exact usable
  | round _ _ ih => exact ih

theorem ne_nil (stage : strategy.Stage s g sets h) : ∀ members ∈ sets, members ≠ [] := by
  induction stage with
  | opening => simp
  | round _ performs ih =>
    intro members listed
    rcases List.mem_append.mp listed with early | late
    · exact ih members early
    · rw [List.mem_singleton.mp late]
      obtain ⟨committed, commits, -⟩ := performs.commits
      exact commits.ne_nil

/-- What has been done to the graph is a run with these rounds. -/
theorem run (stage : strategy.Stage s g sets h) (valid : g.WellFormed) :
    Run 0 g sets h.graph := by
  induction stage with
  | opening _ begins => exact .done begins.reranked.toTuned
  | round stage performs ih =>
    have positive := (Settings.positive_of_validate stage.usable).2.1
    apply ih.append
    rw [Nat.zero_add]
    exact performs.run positive (ih.wellFormed valid)

theorem wellFormed (stage : strategy.Stage s g sets h) (valid : g.WellFormed) :
    h.graph.WellFormed :=
  (stage.run valid).wellFormed valid

/-- The rounds that remain lead to a stage where no vertex is left. After each of them it is known
how many vertices remain. -/
theorem of_rounds {schedule : Schedule} {round remaining : Nat} {progress : List Nat}
    {last : Hierarchy} (stage : (byPriority schedule).Stage s g sets h) (valid : g.WellFormed)
    (reached : sets.length = round) (counted : h.graph.unprocessed.length = remaining)
    (success : h.rounds s schedule round remaining = .ok (progress, last)) :
    ∃ later final, (byPriority schedule).Stage s g (sets ++ later) final ∧
      final.graph.unprocessed = [] ∧ last = final.conclude (sets ++ later).length ∧
      progress = (List.range later.length).map fun i =>
        remaining - (later.take (i + 1)).flatten.length := by
  induction remaining using Nat.strongRecOn generalizing h round progress sets with
  | ind remaining ih =>
    unfold rounds at success
    split at success
    · next finished =>
      cases success
      rw [← reached]
      refine ⟨[], h, ?_, List.length_eq_zero_iff.mp (counted.trans finished), ?_, rfl⟩
      · rwa [List.append_nil]
      · rw [List.append_nil]
    · split at success
      · cases success
      · next first others chosen =>
        obtain ⟨next, stepped, success⟩ := bind_eq_ok.mp success
        obtain ⟨⟨left, final⟩, continued, success⟩ := bind_eq_ok.mp success
        cases pure_eq_ok.mp success
        have performs : (byPriority schedule).Performs s sets.length (first :: others) h next :=
          ⟨chosen, List.cons_ne_nil _ _, reached ▸ stepped⟩
        have positive := (Settings.positive_of_validate stage.usable).2.1
        have shrunk := performs.unprocessed_length positive (stage.wellFormed valid)
        have longer : (sets ++ [first :: others]).length = round + 1 := by
          rw [List.length_append, reached]
          rfl
        have fewer : remaining - (first :: others).length < remaining := by
          simp only [List.length_cons]
          omega
        obtain ⟨later, last, reaches, complete, concluded, counts⟩ :=
          ih _ fewer (stage.round performs) longer (by omega) continued
        rw [List.append_assoc] at reaches concluded
        refine ⟨(first :: others) :: later, last, reaches, complete, concluded, ?_⟩
        have grown : ((first :: others) :: later).length = later.length + 1 := rfl
        rw [grown, List.range_succ_eq_map, List.map_cons, List.map_map, counts]
        refine congrArg₂ _ ?_ (List.map_congr_left fun i _ => ?_)
        · simp
        · rw [Function.comp_apply, List.take_succ_cons, List.flatten_cons, List.length_append]
          exact Nat.sub_sub ..

/-- The part of the order that is left leads on to further stages. -/
theorem of_foldlM {done rest : List Nat} {last : Hierarchy}
    (stage : (inOrder (done ++ rest)).Stage s g (done.map ([·])) h)
    (success : (rest.zipIdx done.length).foldlM (contractNext s) h = .ok last) :
    (inOrder (done ++ rest)).Stage s g ((done ++ rest).map ([·])) last := by
  induction rest generalizing h done with
  | nil =>
    obtain rfl := pure_eq_ok.mp success
    rw [List.append_nil] at stage ⊢
    exact stage
  | cons v rest ih =>
    obtain ⟨next, first, later⟩ := foldlM_cons_eq_ok.mp success
    have performs :
        (inOrder (done ++ v :: rest)).Performs s (done.map ([·])).length [v] h next := by
      refine ⟨v, ?_, rfl, ?_⟩
      · rw [List.length_map, List.getElem?_append_right le_rfl, Nat.sub_self]
        rfl
      · rw [List.length_map]
        exact first
    have reached := stage.round performs
    have moved : done ++ v :: rest = done ++ [v] ++ rest := by simp
    rw [moved] at reached ⊢
    apply ih
    · rw [List.map_append]
      exact reached
    · rw [List.length_append]
      exact later

end Stage

end Strategy

namespace Hierarchy

open RoadHierarchy.Graph RoadHierarchy.Strategy

variable {s : Settings} {g : Graph} {h : Hierarchy}

/-- The priority strategy goes through its stages until no vertex is left. After each round it is
noted how many vertices have been contracted so far. -/
theorem progress_of_buildUnder {schedule : Schedule} {progress : List Nat} (valid : g.WellFormed)
    (success : buildUnder schedule s g = .ok (progress, h)) :
    ∃ sets last, (byPriority schedule).Stage s g sets last ∧ last.graph.unprocessed = [] ∧
      h = last.conclude sets.length ∧
      progress = (List.range sets.length).map fun i => (sets.take (i + 1)).flatten.length := by
  obtain ⟨_, usable, success⟩ := bind_eq_ok.mp success
  obtain ⟨ranked, first, success⟩ := bind_eq_ok.mp success
  obtain ⟨⟨remaining, final⟩, continued, success⟩ := bind_eq_ok.mp success
  cases pure_eq_ok.mp success
  have tuned : g.Tuned ranked.graph := (reranked_of_rank first).toTuned
  have opening : (byPriority schedule).Stage s g [] ranked := .opening usable first
  obtain ⟨sets, last, stage, complete, concluded, rfl⟩ :=
    opening.of_rounds valid rfl (congrArg List.length tuned.unprocessed) continued
  rw [List.nil_append] at stage concluded
  refine ⟨sets, last, stage, complete, concluded, ?_⟩
  have total := (stage.run valid).unprocessed.length_eq
  rw [complete, List.append_nil] at total
  rw [List.map_map]
  refine List.map_congr_left fun i _ => ?_
  have part : (sets.take (i + 1)).flatten.length ≤ sets.flatten.length :=
    ((List.take_sublist _ _).flatten).length_le
  exact Nat.sub_sub_self (total.symm ▸ part)

theorem stage_of_buildUnder {schedule : Schedule} {progress : List Nat} (valid : g.WellFormed)
    (success : buildUnder schedule s g = .ok (progress, h)) :
    ∃ sets last, (byPriority schedule).Stage s g sets last ∧ last.graph.unprocessed = [] ∧
      h = last.conclude sets.length := by
  obtain ⟨sets, last, stage, complete, concluded, -⟩ := progress_of_buildUnder valid success
  exact ⟨sets, last, stage, complete, concluded⟩

/-- After rounds of one vertex each, the vertices that were unprocessed are those of the rounds and
those that still are. -/
theorem perm_of_stage {strategy : Strategy} {order : List Nat} (valid : g.WellFormed)
    (stage : strategy.Stage s g (order.map ([·])) h) :
    g.unprocessed.Perm (order ++ h.graph.unprocessed) := by
  have flat : (order.map ([·])).flatten = order := by
    rw [← List.flatMap_def, List.flatMap_singleton']
  have contracted := (stage.run valid).unprocessed
  rwa [flat] at contracted

/-- With settings that can be used and as many entries as there are vertices left, the entries of the
order are contracted one after the other. -/
theorem buildInOrder_eq {order : List Nat} (usable : s.validate = .ok ())
    (total : order.length = g.unprocessed.length) : buildInOrder s order g = (do
      let last ← order.zipIdx.foldlM (contractNext s) (start g)
      return last.conclude order.length) := by
  unfold buildInOrder
  rw [usable]
  dsimp only [bind, Except.bind]
  rw [if_neg (not_not.mpr total)]

theorem buildInOrder_eq_ok {order : List Nat} : buildInOrder s order g = .ok h ↔
    s.validate = .ok () ∧ order.length = g.unprocessed.length ∧ ∃ last,
      order.zipIdx.foldlM (contractNext s) (start g) = .ok last ∧
        last.conclude order.length = h := by
  constructor
  · intro success
    obtain ⟨_, usable, continued⟩ := bind_eq_ok.mp success
    have total : order.length = g.unprocessed.length := by
      by_contra other
      dsimp only at continued
      rw [if_pos other] at continued
      cases continued
    rw [buildInOrder_eq usable total] at success
    obtain ⟨last, folded, concluded⟩ := bind_eq_ok.mp success
    exact ⟨usable, total, last, folded, pure_eq_ok.mp concluded⟩
  · rintro ⟨usable, total, last, folded, concluded⟩
    rw [buildInOrder_eq usable total]
    exact bind_eq_ok.mpr ⟨last, folded, pure_eq_ok.mpr concluded⟩

/-- The fixed order contracts its vertices one by one, until no vertex is left. -/
theorem stage_of_order {order : List Nat} (valid : g.WellFormed)
    (success : buildInOrder s order g = .ok h) : order.length = g.unprocessed.length ∧
      ∃ last, (inOrder order).Stage s g (order.map ([·])) last ∧ last.graph.unprocessed = [] ∧
        h = last.conclude order.length := by
  obtain ⟨usable, total, final, folded, rfl⟩ := buildInOrder_eq_ok.mp success
  have first : (inOrder order).Stage s g [] (start g) := .opening usable ⟨total, rfl⟩
  have stage : (inOrder ([] ++ order)).Stage s g (([] ++ order).map ([·])) final :=
    .of_foldlM first folded
  rw [List.nil_append] at stage
  refine ⟨total, final, stage, ?_, rfl⟩
  have counted := (perm_of_stage valid stage).length_eq
  rw [List.length_append] at counted
  apply List.length_eq_zero_iff.mp
  omega

/-- The fixed order goes through its stages until no vertex is left. -/
theorem stage_of_buildInOrder {order : List Nat} (valid : g.WellFormed)
    (success : buildInOrder s order g = .ok h) :
    ∃ sets last, (inOrder order).Stage s g sets last ∧ last.graph.unprocessed = [] ∧
      h = last.conclude sets.length := by
  obtain ⟨-, last, stage, complete, rfl⟩ := stage_of_order valid success
  exact ⟨_, _, stage, complete, by rw [List.length_map]⟩

/-- The hierarchy is one that a strategy builds from the graph: the priority strategy under some
turns of its workers, or the other one in some order. -/
def BuiltFrom (s : Settings) (g : Graph) (h : Hierarchy) : Prop :=
  (∃ schedule progress, buildUnder schedule s g = .ok (progress, h)) ∨
    ∃ order, buildInOrder s order g = .ok h

/-- Either strategy goes through stages until no vertex is left. -/
theorem BuiltFrom.stage (built : BuiltFrom s g h) (valid : g.WellFormed) :
    ∃ (strategy : Strategy) (sets : List (List Nat)) (last : Hierarchy),
      strategy.Stage s g sets last ∧ last.graph.unprocessed = [] ∧
        h = last.conclude sets.length := by
  rcases built with ⟨schedule, progress, success⟩ | ⟨order, success⟩
  · exact ⟨_, stage_of_buildUnder valid success⟩
  · exact ⟨_, stage_of_buildInOrder valid success⟩

/-- Either strategy runs until no vertex is left. -/
theorem BuiltFrom.run (built : BuiltFrom s g h) (valid : g.WellFormed) :
    ∃ rounds, Run 0 g rounds h.graph ∧ h.graph.unprocessed = [] := by
  obtain ⟨strategy, sets, last, stage, complete, rfl⟩ := built.stage valid
  exact ⟨sets, stage.run valid, complete⟩

end Hierarchy

end RoadHierarchy
