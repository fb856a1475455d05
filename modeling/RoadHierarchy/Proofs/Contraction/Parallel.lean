import RoadHierarchy.Graph.Extract
import RoadHierarchy.Proofs.Contraction.Overflow
import RoadHierarchy.Proofs.Contraction.Turns

/-! # Simulating together is simulating in turn

What a crew has staged, in whatever order, is put into one place for each vertex and taken out again
in the order of the vertices. So a dispatch gives what simulating the vertices one after the other
gives. A vertex that is listed twice finds its place taken, and the dispatch is refused.
-/

namespace RoadHierarchy

variable {simulate : Nat → Except Failure Simulation} {results more : List (Nat × Simulation)}
  {vertices taken : List Nat} {size : Nat}

/-- Results that are genuine are determined by their vertices. -/
theorem Genuine.ext (first : Genuine simulate results) (second : Genuine simulate more)
    (same : results.map (·.1) = more.map (·.1)) : results = more := by
  induction results generalizing more with
  | nil => exact (List.map_eq_nil_iff.mp same.symm).symm
  | cons result rest ih =>
    cases more with
    | nil => cases same
    | cons other others =>
      obtain ⟨head, tail⟩ := List.cons_eq_cons.mp same
      dsimp only at head
      have one := first result (List.mem_cons_self ..)
      have two := second other (List.mem_cons_self ..)
      rw [head, two] at one
      have equal : result = other := Prod.ext head (Except.ok.inj one).symm
      rw [equal, ih (fun r member => first r (List.mem_cons_of_mem _ member))
        (fun r member => second r (List.mem_cons_of_mem _ member)) tail]

/-- Where all have a genuine result, none fails. -/
theorem Genuine.not_failsAmong (genuine : Genuine simulate results)
    (all : ∀ v ∈ vertices, v ∈ results.map (·.1)) (failure : Failure) :
    ¬ FailsAmong simulate vertices failure := by
  rintro ⟨v, member, fails⟩
  obtain ⟨result, listed, rfl⟩ := List.mem_map.mp (all v member)
  rw [genuine result listed] at fails
  cases fails

theorem Worker.simulateBatch_eq_mapM (simulate : Nat → Except Failure Simulation)
    (batch : List Nat) :
    simulateBatch simulate batch = batch.mapM fun v => (v, ·) <$> simulate v := by
  induction batch with
  | nil => rfl
  | cons v rest ih =>
    rw [List.mapM_cons, simulateBatch, ih]
    cases simulate v <;> rfl

namespace Slots

/-- The places of these vertices are taken, and all others are free. -/
def Takes (size : Nat) (taken : List Nat) (slots : Slots) : Prop :=
  ∀ v < size, ∃ content, slots[v]? = some content ∧ (content.isSome = true ↔ v ∈ taken)

variable {slots : Slots}

theorem takes_replicate (size : Nat) : Takes size [] (Array.replicate size none) := by
  intro v known
  refine ⟨none, ?_, by simp⟩
  rw [Array.getElem?_replicate, if_pos known]

theorem Takes.congr (takes : Takes size taken slots) {others : List Nat}
    (same : ∀ v, v ∈ taken ↔ v ∈ others) : Takes size others slots := by
  intro v known
  obtain ⟨content, found, full⟩ := takes v known
  exact ⟨content, found, full.trans (same v)⟩

theorem Takes.set (takes : Takes size taken slots) {v : Nat}
    (content : Option Simulation) {others : List Nat}
    (here : content.isSome = true ↔ v ∈ others)
    (elsewhere : ∀ w, w ≠ v → (w ∈ taken ↔ w ∈ others)) :
    Takes size others (slots.setIfInBounds v content) := by
  intro w inside
  obtain ⟨old, found, full⟩ := takes w inside
  rw [Array.getElem?_setIfInBounds]
  by_cases same : v = w
  · subst w
    have present : v < slots.size := (Array.getElem?_eq_some_iff.mp found).1
    exact ⟨content, by rw [if_pos rfl, if_pos present], here⟩
  · refine ⟨old, ?_, full.trans (elsewhere w (Ne.symm same))⟩
    rw [if_neg same]
    exact found

theorem Takes.fill (takes : Takes size taken slots) {result : Nat × Simulation}
    (known : result.1 < size) (free : result.1 ∉ taken) :
    ∃ next, slots.fill result = .ok next ∧ Takes size (result.1 :: taken) next := by
  obtain ⟨content, found, full⟩ := takes result.1 known
  cases content with
  | some simulation => exact (free (full.mp rfl)).elim
  | none =>
    refine ⟨slots.setIfInBounds result.1 (some result.2), ?_, ?_⟩
    · rw [Slots.fill, found]
    · apply takes.set
      · simp
      · intro w apart
        simp [apart]

theorem Takes.fill_twice (takes : Takes size taken slots) {result : Nat × Simulation}
    (known : result.1 < size) (twice : result.1 ∈ taken) :
    slots.fill result = .error (.invariant (.simulatedTwice result.1)) := by
  obtain ⟨content, found, full⟩ := takes result.1 known
  cases content with
  | none => cases full.mpr twice
  | some simulation => rw [Slots.fill, found]

/-- Results of different vertices all find their places free. -/
theorem Takes.foldlM_fill (takes : Takes size taken slots)
    (known : ∀ result ∈ results, result.1 < size)
    (single : (results.map (·.1) ++ taken).Nodup) :
    ∃ next, results.foldlM Slots.fill slots = .ok next ∧
      Takes size (results.map (·.1) ++ taken) next := by
  induction results generalizing slots taken with
  | nil => exact ⟨slots, rfl, takes⟩
  | cons result rest ih =>
    obtain ⟨here, later⟩ := List.forall_mem_cons.mp known
    obtain ⟨fresh, others⟩ := List.nodup_cons.mp single
    have free : result.1 ∉ taken := fun member => fresh (List.mem_append_right _ member)
    obtain ⟨next, filled, takes⟩ := takes.fill here free
    have moved : (rest.map (·.1) ++ result.1 :: taken).Nodup :=
      List.perm_middle.nodup_iff.mpr single
    obtain ⟨last, folded, takes⟩ := ih takes later moved
    refine ⟨last, foldlM_cons_eq_ok.mpr ⟨next, filled, folded⟩, takes.congr fun v => ?_⟩
    exact List.perm_middle.mem_iff

/-- A vertex with two results finds its place taken. -/
theorem Takes.foldlM_fill_twice (takes : Takes size taken slots)
    (known : ∀ result ∈ results, result.1 < size) (before : taken.Nodup)
    (twice : ¬ (results.map (·.1) ++ taken).Nodup) :
    ∃ v, results.foldlM Slots.fill slots = .error (.invariant (.simulatedTwice v)) := by
  induction results generalizing slots taken with
  | nil => exact (twice before).elim
  | cons result rest ih =>
    obtain ⟨here, later⟩ := List.forall_mem_cons.mp known
    rw [List.foldlM_cons]
    by_cases member : result.1 ∈ taken
    · rw [takes.fill_twice here member]
      exact ⟨result.1, rfl⟩
    · obtain ⟨next, filled, takes⟩ := takes.fill here member
      rw [filled]
      apply ih takes later (List.nodup_cons.mpr ⟨member, before⟩)
      exact fun single => twice (List.perm_middle.nodup_iff.mp single)

/-- Different vertices whose places are taken can all be collected. -/
theorem Takes.collect (takes : Takes size taken slots)
    (known : ∀ v ∈ vertices, v < size ∧ v ∈ taken) (single : vertices.Nodup) :
    ∃ results, slots.collect vertices = .ok results := by
  induction vertices generalizing slots taken with
  | nil => exact ⟨[], rfl⟩
  | cons v rest ih =>
    obtain ⟨⟨here, member⟩, later⟩ := List.forall_mem_cons.mp known
    obtain ⟨fresh, others⟩ := List.nodup_cons.mp single
    obtain ⟨content, found, full⟩ := takes v here
    cases content with
    | none => cases full.mpr member
    | some simulation =>
      have left : Takes size (taken.filter (· != v)) (slots.setIfInBounds v none) := by
        apply takes.set
        · simp
        · intro w apart
          simp [apart]
      have remaining : ∀ w ∈ rest, w < size ∧ w ∈ taken.filter (· != v) := by
        intro w listed
        refine ⟨(later w listed).1, List.mem_filter.mpr ⟨(later w listed).2, ?_⟩⟩
        rw [bne_iff_ne]
        rintro rfl
        exact fresh listed
      obtain ⟨results, collected⟩ := ih left remaining others
      refine ⟨(v, simulation) :: results, ?_⟩
      rw [Slots.collect, found]
      simp only [collected]
      rfl

end Slots

namespace Graph

variable {g : Graph} {s : Settings}

section Dispatch

variable (known : ∀ v ∈ vertices, v < g.vertexCount) (positive : 0 < s.batchSize)
  (staffed : 0 < s.numThreads) (clears : s.CursorClears vertices.length) (turns : List Nat)
include known positive staffed clears

/-- A dispatch of different vertices delivers a simulation of each, unless one of them fails. -/
theorem dispatch_returns (single : vertices.Nodup) :
    Returns (FailsAmong simulate vertices)
      (fun results => results.map (·.1) = vertices ∧ Genuine simulate results)
      (g.dispatch s turns vertices simulate) := by
  have delivers : Returns (FailsAmong simulate vertices) (fun _ => True)
      (g.dispatch s turns vertices simulate) := by
    apply (Crew.run_returns positive staffed clears turns).bind
    intro staged _ perm
    have inside : ∀ result ∈ staged, result.1 < g.vertexCount :=
      List.forall_mem_map.mp fun v member => known v (perm.mem_iff.mp member)
    have distinct := perm.nodup_iff.mpr single
    rw [← List.append_nil (staged.map _)] at distinct
    obtain ⟨slots, filled, takes⟩ :=
      (Slots.takes_replicate g.vertexCount).foldlM_fill inside distinct
    rw [filled]
    rw [List.append_nil] at takes
    obtain ⟨results, collected⟩ :=
      takes.collect (fun v member => ⟨known v member, perm.mem_iff.mpr member⟩) single
    exact .of_eq_ok collected trivial
  exact delivers.mono fun results success _ => dispatch_eq_ok success

/-- A dispatch in which a vertex is repeated is refused, once all simulations have succeeded. -/
theorem dispatch_twice (twice : ¬ vertices.Nodup) :
    Returns (fun failure => FailsAmong simulate vertices failure ∨
        (∀ v ∈ vertices, ∃ simulation, simulate v = .ok simulation) ∧
          ∃ v, failure = .invariant (.simulatedTwice v))
      (fun _ => False) (g.dispatch s turns vertices simulate) := by
  have staging : Returns (FailsAmong simulate vertices) _ _ :=
    Crew.run_returns positive staffed clears turns
  apply (staging.imp (fun _ _ => .inl) fun _ _ perm => perm).bind
  intro staged delivered perm
  have inside : ∀ result ∈ staged, result.1 < g.vertexCount :=
    List.forall_mem_map.mp fun v member => known v (perm.mem_iff.mp member)
  have repeated := mt perm.nodup_iff.mp twice
  rw [← List.append_nil (staged.map _)] at repeated
  obtain ⟨v, refused⟩ :=
    (Slots.takes_replicate g.vertexCount).foldlM_fill_twice inside .nil repeated
  rw [refused]
  refine .inr ⟨fun w member => ?_, v, rfl⟩
  obtain ⟨result, listed, rfl⟩ := List.mem_map.mp (perm.mem_iff.mpr member)
  exact ⟨result.2, Crew.genuine_of_run delivered result listed⟩

omit clears in
/-- A dispatch whose cursor comes round to a vertex is refused, if no simulation fails. -/
theorem dispatch_wrapped (again : ¬ s.CursorClears vertices.length) :
    Returns (fun failure => (FailsAmong simulate vertices failure ∨ failure = .overflow) ∨
        ∃ v, failure = .invariant (.simulatedTwice v))
      (fun _ => False) (g.dispatch s turns vertices simulate) := by
  have staging : Returns (fun failure => FailsAmong simulate vertices failure ∨ failure = .overflow)
      _ _ := Crew.run_repeats positive staffed again turns
  apply (staging.imp (fun _ _ => .inl) fun _ _ repeated => repeated).bind
  rintro staged _ ⟨part, repeated⟩
  have inside : ∀ result ∈ staged, result.1 < g.vertexCount :=
    List.forall_mem_map.mp fun v member => known v (part v member)
  rw [← List.append_nil (staged.map _)] at repeated
  obtain ⟨v, refused⟩ :=
    (Slots.takes_replicate g.vertexCount).foldlM_fill_twice inside .nil repeated
  rw [refused]
  exact .inr ⟨v, rfl⟩

variable (bounded : ∀ v, Returns Overflows (fun _ => True) (simulate v))
include bounded

omit known positive staffed clears in
theorem overflow_of_failsAmong {failure : Failure} (fails : FailsAmong simulate vertices failure) :
    failure = .overflow := by
  obtain ⟨v, -, failed⟩ := fails
  have overflow := bounded v
  rw [failed] at overflow
  exact overflow

omit known positive staffed clears in
/-- When the simulations one after the other fail, one of them has overflowed. -/
theorem overflow_of_simulateBatch {failure : Failure}
    (failed : Worker.simulateBatch simulate vertices = .error failure) :
    failure = .overflow ∧ FailsAmong simulate vertices .overflow := by
  have returns : Returns (FailsAmong simulate vertices) _ _ :=
    Worker.simulateBatch_returns fun v member => member
  rw [failed] at returns
  obtain rfl := overflow_of_failsAmong bounded returns
  exact ⟨rfl, returns⟩

/-- A dispatch of different vertices simulates them one after the other. -/
theorem dispatch_eq (single : vertices.Nodup) :
    g.dispatch s turns vertices simulate = Worker.simulateBatch simulate vertices := by
  have delivers : Returns (FailsAmong simulate vertices) _ (g.dispatch s turns vertices simulate) :=
    dispatch_returns known positive staffed clears turns single
  cases sequential : Worker.simulateBatch simulate vertices with
  | ok results =>
    obtain ⟨listed, genuine⟩ := Worker.simulateBatch_eq_ok sequential
    have none := genuine.not_failsAmong fun v (member : v ∈ vertices) => listed.symm ▸ member
    obtain ⟨others, parallel, same, true_⟩ :=
      delivers.exists_ok fun failure fails => (none failure fails).elim
    rw [parallel, genuine.ext true_ (listed.trans same.symm)]
  | error failure =>
    obtain ⟨rfl, fails⟩ := overflow_of_simulateBatch bounded sequential
    cases parallel : g.dispatch s turns vertices simulate with
    | ok others =>
      rw [parallel] at delivers
      obtain ⟨listed, genuine⟩ := delivers
      exact (genuine.not_failsAmong (fun v member => listed.symm ▸ member) _ fails).elim
    | error other =>
      rw [parallel] at delivers
      rw [overflow_of_failsAmong bounded delivers]

/-- A dispatch with a repeated vertex simulates all vertices and is then refused. -/
theorem dispatch_eq_of_twice (twice : ¬ vertices.Nodup) :
    ∃ v, g.dispatch s turns vertices simulate =
      Worker.simulateBatch simulate vertices >>=
        fun _ => .error (.invariant (.simulatedTwice v)) := by
  have refuses : Returns _ _ (g.dispatch s turns vertices simulate) :=
    dispatch_twice known positive staffed clears turns twice
  cases parallel : g.dispatch s turns vertices simulate with
  | ok results =>
    rw [parallel] at refuses
    exact refuses.elim
  | error failure =>
    rw [parallel] at refuses
    cases sequential : Worker.simulateBatch simulate vertices with
    | ok results =>
      obtain ⟨listed, genuine⟩ := Worker.simulateBatch_eq_ok sequential
      rcases refuses with fails | ⟨-, v, rfl⟩
      · exact (genuine.not_failsAmong (fun v member => listed.symm ▸ member) _ fails).elim
      · exact ⟨v, rfl⟩
    | error other =>
      obtain ⟨rfl, v, member, fails⟩ := overflow_of_simulateBatch bounded sequential
      rcases refuses with failed | ⟨succeed, -⟩
      · rw [overflow_of_failsAmong bounded failed]
        exact ⟨0, rfl⟩
      · obtain ⟨simulation, simulated⟩ := succeed v member
        rw [simulated] at fails
        cases fails

end Dispatch

section Simulations

variable (known : ∀ v ∈ vertices, v < g.vertexCount) (positive : 0 < s.batchSize)
  (staffed : 0 < s.numThreads)

section Clear

variable (clears : s.CursorClears vertices.length) (turns : List Nat)
include known positive staffed clears

/-- Simulating different vertices for ranking fails only by overflow. -/
theorem simulateAll_returns (single : vertices.Nodup) :
    Returns Overflows (fun results => results.map (·.1) = vertices)
      (g.simulateAll s turns vertices) := by
  apply (dispatch_returns known positive staffed clears turns single).imp
  · intro failure _ fails
    exact overflow_of_failsAmong (fun v => g.simulateAvoiding_returns _ v _) fails
  · exact fun results _ delivered => delivered.1

/-- Simulating different vertices for contraction fails only by overflow. -/
theorem simulateRound_returns (single : vertices.Nodup) :
    Returns Overflows
      (fun results => results.map (·.1) = vertices ∧
        Genuine (fun v => g.simulateInRound s.searchSpaceHopLimit v vertices) results)
      (g.simulateRound s turns vertices) := by
  apply (dispatch_returns known positive staffed clears turns single).imp
  · intro failure _ fails
    exact overflow_of_failsAmong (fun v => g.simulateAvoiding_returns _ v _) fails
  · exact fun results _ delivered => delivered

/-- Different vertices are simulated for ranking as if in turn. -/
theorem simulateAll_eq (single : vertices.Nodup) :
    g.simulateAll s turns vertices =
      Worker.simulateBatch (g.simulate s.searchSpaceHopLimit) vertices :=
  dispatch_eq known positive staffed clears turns (fun v => g.simulateAvoiding_returns _ v _) single

/-- Different vertices are simulated for contraction as if in turn. -/
theorem simulateRound_eq (single : vertices.Nodup) :
    g.simulateRound s turns vertices =
      Worker.simulateBatch (fun v => g.simulateInRound s.searchSpaceHopLimit v vertices)
        vertices :=
  dispatch_eq known positive staffed clears turns (fun v => g.simulateAvoiding_returns _ v _) single

end Clear

variable (fits : s.CursorFits vertices.length) (turns : List Nat)
include known positive staffed fits

/-- Sharing simulations out to workers is simulating the vertices in turn, in whatever order the
workers ask. If no vertex is repeated, the results are the same and in the order of the vertices,
and what the workers have staged is each vertex once. A list with a repeated vertex is refused as
soon as all its simulations have succeeded. -/
theorem simulations_under_turns :
    (vertices.Nodup →
      g.simulateAll s turns vertices =
        vertices.mapM (fun v => (v, ·) <$> g.simulate s.searchSpaceHopLimit v) ∧
      g.simulateRound s turns vertices =
        vertices.mapM (fun v =>
          (v, ·) <$> g.simulateInRound s.searchSpaceHopLimit v vertices) ∧
      ∀ simulate staged,
        (Crew.ofSize s.numThreads (.ofVertices vertices s.batchSize)).run simulate turns =
          .ok staged → (staged.map (·.1)).Perm vertices) ∧
    (¬ vertices.Nodup →
      (∃ v, g.simulateAll s turns vertices =
        vertices.mapM (fun v => (v, ·) <$> g.simulate s.searchSpaceHopLimit v) >>=
          fun _ => .error (.invariant (.simulatedTwice v))) ∧
      ∃ v, g.simulateRound s turns vertices =
        vertices.mapM (fun v =>
          (v, ·) <$> g.simulateInRound s.searchSpaceHopLimit v vertices) >>=
          fun _ => .error (.invariant (.simulatedTwice v))) := by
  simp only [← Worker.simulateBatch_eq_mapM]
  have alone := fun v => g.simulateAvoiding_returns s.searchSpaceHopLimit v (· == v)
  have together := fun v => g.simulateAvoiding_returns s.searchSpaceHopLimit v
    fun other => other == v || vertices.contains other
  have clears := fits.clears positive staffed
  constructor
  · intro single
    refine ⟨?_, ?_, ?_⟩
    · exact dispatch_eq known positive staffed clears turns alone single
    · exact dispatch_eq known positive staffed clears turns together single
    · intro simulate staged delivered
      have returns : Returns (FailsAmong simulate vertices) _ _ :=
        Crew.run_returns positive staffed clears turns
      rw [delivered] at returns
      exact returns
  · intro twice
    constructor
    · exact dispatch_eq_of_twice known positive staffed clears turns alone twice
    · exact dispatch_eq_of_twice known positive staffed clears turns together twice

end Simulations

/-- Two workers take single vertices of a triangle, the second one first. Three different vertices
are simulated as if in turn; with one of them repeated, the simulations are refused. -/
theorem simulations_under_turns_triangle : ∃ g s, ofExtract ⟨List.replicate 3 ⟨0, 0⟩,
      [⟨0, 1, 1, true⟩, ⟨1, 2, 1, false⟩, ⟨2, 0, 3, true⟩]⟩ = .ok g ∧
    s = { numThreads := 2, batchSize := 1 : Settings } ∧
    g.simulateAll s [1, 0, 1, 1] [2, 0, 1] =
      [2, 0, 1].mapM (fun v => (v, ·) <$> g.simulate s.searchSpaceHopLimit v) ∧
    ∃ v, g.simulateAll s [1, 0, 1, 1] [2, 0, 2] =
      [2, 0, 2].mapM (fun v => (v, ·) <$> g.simulate s.searchSpaceHopLimit v) >>=
        fun _ => .error (.invariant (.simulatedTwice v)) := by
  have computed : (do
      let g ← ofExtract ⟨List.replicate 3 ⟨0, 0⟩,
        [⟨0, 1, 1, true⟩, ⟨1, 2, 1, false⟩, ⟨2, 0, 3, true⟩]⟩
      return g.vertexCount).toOption = some 3 := by
    decide +kernel
  obtain ⟨g, extracted, computed⟩ := bind_eq_ok.mp (toOption_eq_some.mp computed)
  have size : g.vertexCount = 3 := pure_eq_ok.mp computed
  refine ⟨g, _, extracted, rfl, ?_, ?_⟩
  · refine ((simulations_under_turns ?_ ?_ ?_ ?_ [1, 0, 1, 1]).1 (by decide)).1
    · rw [size]
      decide
    all_goals decide
  · refine ((simulations_under_turns ?_ ?_ ?_ ?_ [1, 0, 1, 1]).2 (by decide)).1
    · rw [size]
      decide
    all_goals decide

end Graph

end RoadHierarchy
