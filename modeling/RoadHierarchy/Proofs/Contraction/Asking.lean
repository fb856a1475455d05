import RoadHierarchy.Contraction.Crew
import RoadHierarchy.Proofs.Outcome

/-! # What a crew keeps

Whatever turns its workers take, a crew does nothing but ask for batches and simulate what it gets.
So what each single request keeps is kept until the last worker has stopped.
-/

namespace RoadHierarchy

/-- Every request of a crew of this size keeps what is known of the number of workers that have
stopped, of what the crew has staged, in whatever order, and of the source. A worker that gets no
batch stops. A request may fail for a cause of a kind. -/
structure Crew.Keeps (simulate : Nat → Except Failure Simulation) (cause : Failure → Prop)
    (workers : Nat) (known : Nat → List (Nat × Simulation) → BatchSource → Prop) : Prop where
  reorder : ∀ {stopped staged more source}, staged.Perm more → known stopped staged source →
    known stopped more source
  ask : ∀ {stopped staged source}, stopped < workers → known stopped staged source →
    Returns cause (fun answer : Option (List Nat) × BatchSource => match answer with
      | (none, rest) => known (stopped + 1) staged rest
      | (some batch, rest) =>
          Returns cause (fun results => known stopped (staged ++ results) rest)
            (Worker.simulateBatch simulate batch)) source.next

variable {simulate : Nat → Except Failure Simulation} {cause : Failure → Prop} {workers : Nat}
  {known : Nat → List (Nat × Simulation) → BatchSource → Prop}
  {stopped : Nat} {staged others : List (Nat × Simulation)} {source : BatchSource}

namespace Worker

/-- A drain goes on with every batch that it is given. -/
theorem drain_eq (simulate : Nat → Except Failure Simulation) (source : BatchSource) :
    drain simulate source = (do
      let (answer, rest) ← source.next
      match answer with
      | none => return ([], rest)
      | some batch =>
        let results ← simulateBatch simulate batch
        let (later, last) ← drain simulate rest
        return (results ++ later, last)) := by
  rw [drain]
  split
  · next failed =>
    rw [failed]
    rfl
  · next answered =>
    rw [answered]
    rfl
  · next answered =>
    rw [answered]
    rfl

variable (keeps : Crew.Keeps simulate cause workers known) (running : stopped < workers)
include keeps running

theorem turn_keeps {worker : Worker}
    (sofar : known (stopped + worker.stopped.toNat) (others ++ worker.staged) source) :
    Returns cause
      (fun outcome => known (stopped + outcome.1.stopped.toNat) (others ++ outcome.1.staged)
        outcome.2)
      (worker.turn simulate source) := by
  unfold turn
  split
  · exact sofar
  · next asks =>
    rw [Bool.not_eq_true] at asks
    rw [asks] at sofar
    apply (keeps.ask running sofar).bind
    rintro ⟨_ | batch, rest⟩ _ answered
    · exact answered
    · apply Returns.bind answered
      intro results _ kept
      rw [List.append_assoc] at kept
      simp only [asks]
      exact kept

/-- A worker that goes on until the source is empty stops then. -/
theorem drain_keeps (sofar : known stopped staged source) :
    Returns cause (fun outcome => known (stopped + 1) (staged ++ outcome.1) outcome.2)
      (drain simulate source) := by
  induction left : source.remaining using Nat.strongRecOn generalizing source staged with
  | ind _ ih =>
    rw [drain_eq]
    apply (keeps.ask running sofar).bind
    rintro ⟨_ | batch, rest⟩ given answered
    · rw [← List.append_nil staged] at answered
      exact answered
    · have fewer := BatchSource.remaining_lt_of_next given
      apply Returns.bind answered
      intro results _ kept
      apply (ih _ (left ▸ fewer) kept rfl).bind
      rintro ⟨later, last⟩ _ finished
      rw [List.append_assoc] at finished
      exact finished

theorem finish_keeps {worker : Worker}
    (sofar : known (stopped + worker.stopped.toNat) (others ++ worker.staged) source) :
    Returns cause
      (fun outcome => outcome.1.stopped = true ∧
        known (stopped + outcome.1.stopped.toNat) (others ++ outcome.1.staged) outcome.2)
      (worker.finish simulate source) := by
  unfold finish
  split
  · next done => exact ⟨done, sofar⟩
  · next asks =>
    rw [Bool.not_eq_true] at asks
    rw [asks] at sofar
    apply (drain_keeps keeps running sofar).bind
    rintro ⟨later, rest⟩ _ finished
    rw [List.append_assoc] at finished
    exact ⟨rfl, finished⟩

end Worker

namespace Crew

/-- What a team of workers knows together. -/
def Known (known : Nat → List (Nat × Simulation) → BatchSource → Prop) (team : List Worker)
    (source : BatchSource) : Prop :=
  known (team.countP (·.stopped)) (team.flatMap (·.staged)) source

variable {team before after : List Worker} {worker : Worker}

/-- A worker who is found under a number has workers before and after, and changes place with
another. -/
private theorem parts_of_getElem? {number : Nat} (found : team[number]? = some worker) :
    ∃ before after, team = before ++ worker :: after ∧
      ∀ other, team.set number other = before ++ other :: after := by
  obtain ⟨inside, rfl⟩ := List.getElem?_eq_some_iff.mp found
  refine ⟨team.take number, team.drop (number + 1), ?_, fun other => ?_⟩
  · rw [List.getElem_cons_drop, List.take_append_drop]
  · rw [List.set_eq_take_append_cons_drop, if_pos inside]

/-- Of a team with a worker that is still to be asked not all have stopped. -/
theorem countP_stopped_lt (whole : (before ++ worker :: after).length = workers) :
    (before ++ after).countP (·.stopped) < workers := by
  have bound : (before ++ after).countP (·.stopped) ≤ (before ++ after).length :=
    List.countP_le_length
  simp only [List.length_append, List.length_cons] at whole bound
  omega

variable (keeps : Crew.Keeps simulate cause workers known)
include keeps

/-- What a team knows can be seen from each of its workers. -/
theorem known_iff : Known known (before ++ worker :: after) source ↔
    known ((before ++ after).countP (·.stopped) + worker.stopped.toNat)
      ((before ++ after).flatMap (·.staged) ++ worker.staged) source := by
  have stops : (before ++ worker :: after).countP (·.stopped) =
      (before ++ after).countP (·.stopped) + worker.stopped.toNat := by
    rw [List.countP_append, List.countP_append, List.countP_cons]
    cases worker.stopped <;> simp [Nat.add_assoc]
  have same : ((before ++ worker :: after).flatMap (·.staged)).Perm
      ((before ++ after).flatMap (·.staged) ++ worker.staged) := by
    simp only [List.flatMap_append, List.flatMap_cons, List.append_assoc]
    exact List.perm_append_comm.append_left _
  rw [Known, stops]
  exact ⟨keeps.reorder same, keeps.reorder same.symm⟩

theorem turn_keeps {crew : Crew} (number : Nat) (whole : crew.workers.length = workers)
    (sofar : Known known crew.workers crew.source) :
    Returns cause
      (fun later => later.workers.length = workers ∧ Known known later.workers later.source)
      (crew.turn simulate number) := by
  unfold turn
  split
  · exact ⟨whole, sofar⟩
  · next worker found =>
    obtain ⟨before, after, parts, replaced⟩ := parts_of_getElem? found
    rw [parts] at whole sofar
    have running := countP_stopped_lt whole
    apply (Worker.turn_keeps keeps running ((known_iff keeps).mp sofar)).bind
    rintro ⟨done, rest⟩ _ kept
    dsimp only
    rw [replaced]
    refine ⟨?_, (known_iff keeps).mpr kept⟩
    simpa only [List.length_append, List.length_cons] using whole

/-- When every worker has gone on until it has stopped, the whole team has stopped. -/
theorem finish_keeps (finished : List Worker)
    (stopped : ∀ worker ∈ finished, worker.stopped = true)
    (whole : (finished ++ team).length = workers) (sofar : Known known (finished ++ team) source) :
    Returns cause
      (fun results => ∃ rest, known workers (finished.flatMap (·.staged) ++ results) rest)
      (finish simulate team source) := by
  induction team generalizing finished source with
  | nil =>
    rw [List.append_nil] at whole sofar
    have all : finished.countP (·.stopped) = workers :=
      whole ▸ List.countP_eq_length.mpr stopped
    rw [Known, all] at sofar
    refine ⟨source, ?_⟩
    rwa [List.append_nil]
  | cons worker rest ih =>
    have running := countP_stopped_lt whole
    apply (Worker.finish_keeps keeps running ((known_iff keeps).mp sofar)).bind
    rintro ⟨last, later⟩ _ ⟨ends, kept⟩
    have ahead := (known_iff keeps).mpr kept
    have length : (finished ++ last :: rest).length = workers := by
      simpa only [List.length_append, List.length_cons] using whole
    have ended : ∀ worker ∈ finished ++ [last], worker.stopped = true := by
      intro worker member
      rcases List.mem_append.mp member with early | late
      · exact stopped worker early
      · rw [List.mem_singleton.mp late]
        exact ends
    rw [List.append_cons] at ahead length
    apply (ih (finished ++ [last]) ended length ahead).bind
    rintro results _ ⟨final, kept⟩
    refine ⟨final, ?_⟩
    simpa only [List.flatMap_append, List.flatMap_singleton, List.append_assoc] using kept

/-- Whatever the turns are, what every request keeps is known when all workers have stopped. -/
theorem run_keeps (initial : known 0 [] source) (turns : List Nat) :
    Returns cause (fun results => ∃ rest, known workers results rest)
      ((ofSize workers source).run simulate turns) := by
  unfold run
  have start : Known known (ofSize workers source).workers (ofSize workers source).source := by
    have idle : (List.replicate workers Worker.idle).flatMap (·.staged) = [] := by
      simp [Worker.idle]
    have running : (List.replicate workers Worker.idle).countP (·.stopped) = 0 := by
      simp [List.countP_replicate, Worker.idle]
    rw [Known, ofSize, idle, running]
    exact initial
  have kept : Returns cause
      (fun later : Crew =>
        later.workers.length = workers ∧ Known known later.workers later.source)
      (turns.foldlM (turn simulate) (ofSize workers source)) := by
    apply Returns.foldlM
    · rintro number - crew ⟨whole, sofar⟩
      exact turn_keeps keeps number whole sofar
    · exact ⟨List.length_replicate, start⟩
  apply kept.bind
  rintro late _ ⟨whole, sofar⟩
  exact finish_keeps keeps [] (by simp) whole sofar

end Crew

end RoadHierarchy
