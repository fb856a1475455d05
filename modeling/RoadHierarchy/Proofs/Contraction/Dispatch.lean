import RoadHierarchy.Proofs.Contraction.Asking

/-! # What a crew delivers

Whatever turns its workers take, a crew stages nothing but simulations of the vertices it was given,
and what is collected in the end is one of them for each vertex, in the order of the vertices.
-/

namespace RoadHierarchy

/-- Every result is the simulation of its vertex. -/
def Genuine (simulate : Nat → Except Failure Simulation) (results : List (Nat × Simulation)) :
    Prop :=
  ∀ result ∈ results, simulate result.1 = .ok result.2

variable {simulate : Nat → Except Failure Simulation} {results more : List (Nat × Simulation)}

namespace Genuine

theorem nil : Genuine simulate [] := fun _ member => (List.not_mem_nil member).elim

theorem append (first : Genuine simulate results) (second : Genuine simulate more) :
    Genuine simulate (results ++ more) := by
  intro result member
  rcases List.mem_append.mp member with early | late
  · exact first result early
  · exact second result late

end Genuine

namespace Worker

/-- A batch that has been simulated has one result for each of its vertices. -/
theorem simulateBatch_eq_ok {batch : List Nat} (success : simulateBatch simulate batch = .ok results) :
    results.map (·.1) = batch ∧ Genuine simulate results := by
  induction batch generalizing results with
  | nil =>
    cases success
    exact ⟨rfl, .nil⟩
  | cons v rest ih =>
    obtain ⟨simulation, first, success⟩ := bind_eq_ok.mp success
    obtain ⟨others, later, success⟩ := bind_eq_ok.mp success
    obtain rfl := pure_eq_ok.mp success
    obtain ⟨listed, genuine⟩ := ih later
    exact ⟨congrArg (v :: ·) listed, List.forall_mem_cons.mpr ⟨first, genuine⟩⟩

end Worker

/-- Whatever the turns were, nothing but simulations has been staged. -/
theorem Crew.genuine_of_run {size : Nat} {source : BatchSource} {turns : List Nat}
    (success : (ofSize size source).run simulate turns = .ok results) :
    Genuine simulate results := by
  have keeps : Keeps simulate (fun _ => True) size fun _ staged _ => Genuine simulate staged := by
    constructor
    · exact fun same genuine result member => genuine result (same.mem_iff.mpr member)
    · intro _ staged _ _ genuine
      apply Returns.of_success
      rintro ⟨_ | batch, rest⟩ -
      · exact genuine
      · apply Returns.of_success
        intro simulated batched
        exact genuine.append (Worker.simulateBatch_eq_ok batched).2
  have kept : Returns _ _ ((ofSize size source).run simulate turns) := run_keeps keeps .nil turns
  rw [success] at kept
  obtain ⟨-, genuine⟩ := kept
  exact genuine

namespace Slots

/-- Every place that is taken holds the simulation of its vertex. -/
def Holds (simulate : Nat → Except Failure Simulation) (slots : Slots) : Prop :=
  ∀ (v : Nat) (simulation : Simulation), slots[v]? = some (some simulation) →
    simulate v = .ok simulation

theorem holds_replicate (size : Nat) : Holds simulate (Array.replicate size none) := by
  intro v simulation found
  rw [Array.getElem?_replicate] at found
  split at found <;> cases found

theorem Holds.set {slots : Slots} (holds : Holds simulate slots) {v : Nat}
    {content : Option Simulation}
    (genuine : ∀ simulation, content = some simulation → simulate v = .ok simulation) :
    Holds simulate (slots.setIfInBounds v content) := by
  intro w simulation found
  rw [Array.getElem?_setIfInBounds] at found
  split at found
  · next here =>
    subst w
    split at found
    · exact genuine simulation (Option.some.inj found)
    · cases found
  · exact holds w simulation found

theorem Holds.fill {slots next : Slots} (holds : Holds simulate slots) {result : Nat × Simulation}
    (genuine : simulate result.1 = .ok result.2) (success : slots.fill result = .ok next) :
    Holds simulate next := by
  unfold Slots.fill at success
  split at success
  · cases success
  · cases success
  · cases success
    refine holds.set ?_
    rintro simulation ⟨⟩
    exact genuine

theorem Holds.collect {slots : Slots} (holds : Holds simulate slots) {vertices : List Nat}
    (success : slots.collect vertices = .ok results) :
    results.map (·.1) = vertices ∧ Genuine simulate results := by
  induction vertices generalizing slots results with
  | nil =>
    cases success
    exact ⟨rfl, .nil⟩
  | cons v rest ih =>
    unfold Slots.collect at success
    split at success
    · cases success
    · cases success
    · next simulation found =>
      obtain ⟨others, collected, success⟩ := bind_eq_ok.mp success
      obtain rfl := pure_eq_ok.mp success
      obtain ⟨listed, genuine⟩ := ih (holds.set (fun _ none => by cases none)) collected
      exact ⟨congrArg (v :: ·) listed, List.forall_mem_cons.mpr ⟨holds v _ found, genuine⟩⟩

end Slots

/-- A dispatch gives the simulation of every vertex, in the order of the vertices. -/
theorem Graph.dispatch_eq_ok {g : Graph} {s : Settings} {turns vertices : List Nat}
    (success : g.dispatch s turns vertices simulate = .ok results) :
    results.map (·.1) = vertices ∧ Genuine simulate results := by
  obtain ⟨staged, delivered, success⟩ := bind_eq_ok.mp success
  obtain ⟨slots, filled, collected⟩ := bind_eq_ok.mp success
  have genuine := Crew.genuine_of_run delivered
  refine Slots.Holds.collect (foldlM_keeps (Slots.Holds simulate) ?_ filled
    (Slots.holds_replicate _)) collected
  exact fun result member _ _ success holds => holds.fill (genuine result member) success

end RoadHierarchy
