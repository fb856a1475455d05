import RoadHierarchy.Contraction.Witness
import RoadHierarchy.Proofs.Graph.Networks
import RoadHierarchy.Proofs.Queue.Ties
import RoadHierarchy.Proofs.Success

/-! # Searches with ties

Of several vertices at the same distance, the heap decides which one is settled first, and under a
limit of hops the answer can depend on that. So the search is described once more as a relation
between frontiers and answers, with a queue that may break ties in any way. Every such search comes
to an end, for it settles no vertex twice, and the one that is run is among them.
-/

namespace RoadHierarchy.Witness

/-- Where the search is when this entry has been popped. -/
def Frontier.stopAt (f : Frontier) (entry : Nat × Nat) : Stop :=
  ⟨entry.1, entry.2, f.hopsTo entry.1⟩

/-- Settles the vertex that has been popped. -/
def Frontier.settling (f : Frontier) (entry : Nat × Nat) (queue : KeyedQueue Nat Nat) : Frontier :=
  { f with queue, settled := entry.1 :: f.settled }

namespace Query

/-- Settles a vertex that has been popped and drives on from there, unless it takes too many hops to
get there. -/
def visit (q : Query) (f : Frontier) (entry : Nat × Nat) (queue : KeyedQueue Nat Nat) :
    Except Failure (Option Frontier) :=
  if q.hopLimit ≤ (f.stopAt entry).hops then .ok (some (f.settling entry queue))
  else q.relaxAll (f.stopAt entry) (q.graph.outgoing entry.1) (f.settling entry queue)

theorem settle_succ (q : Query) (steps : Nat) (f : Frontier) :
    q.settle (steps + 1) f = (match f.queue.pop with
      | (none, _) => .ok false
      | (some entry, queue) => do
          match ← q.visit f entry queue with
          | none => return true
          | some next => q.settle steps next) := by
  rw [settle]
  rcases f.queue.pop with ⟨_ | entry, queue⟩
  · rfl
  · dsimp only [visit]
    by_cases far : q.hopLimit ≤ (f.stopAt entry).hops
    · rw [if_pos far]
      exact if_pos far
    · rw [if_neg far]
      exact if_neg far

/-- The answers that a search may come to from a frontier on. -/
inductive Answers (q : Query) : Frontier → Except Failure Bool → Prop
  | exhausted {f : Frontier} {queue : KeyedQueue Nat Nat} :
      f.queue.MayPop none queue → Answers q f (.ok false)
  | failed {f : Frontier} {entry : Nat × Nat} {queue : KeyedQueue Nat Nat} {failure : Failure} :
      f.queue.MayPop (some entry) queue → q.visit f entry queue = .error failure →
      Answers q f (.error failure)
  | arrived {f : Frontier} {entry : Nat × Nat} {queue : KeyedQueue Nat Nat} :
      f.queue.MayPop (some entry) queue → q.visit f entry queue = .ok none →
      Answers q f (.ok true)
  | onward {f next : Frontier} {entry : Nat × Nat} {queue : KeyedQueue Nat Nat}
      {answer : Except Failure Bool} :
      f.queue.MayPop (some entry) queue → q.visit f entry queue = .ok (some next) →
      Answers q next answer → Answers q f answer

/-- The search may give this answer, with some choice among vertices at the same distance. -/
def MayAnswer (q : Query) (source : Nat) (answer : Except Failure Bool) : Prop :=
  if q.hopLimit = 0 then answer = .ok false
  else if source = q.target then answer = .ok true
  else q.Answers (.start source) answer

/-- The search may go on from one frontier to another by settling a vertex. -/
def Turn (q : Query) (f next : Frontier) : Prop :=
  ∃ entry queue, f.queue.MayPop (some entry) queue ∧ q.visit f entry queue = .ok (some next)

/-- An edge leads to a vertex that is not skipped, within the limit. -/
structure Opens (q : Query) (stop : Stop) (f : Frontier) (edge : Edge) : Prop where
  notSkipped : q.skips f (edge.other stop.vertex) = false
  within : stop.distance + edge.weight ≤ q.limit

end Query

/-- Some vertices have been reached, or reached on a better way. -/
structure Frontier.Nears (f next : Frontier) : Prop where
  settled : next.settled = f.settled
  queued : ∀ v distance, f.queue.priority? v = some distance →
    ∃ shorter ≤ distance, next.queue.priority? v = some shorter

variable {q : Query} {source : Nat} {f next : Frontier} {stop : Stop} {edge : Edge}
  {edges : List Edge} {entry : Nat × Nat} {queue : KeyedQueue Nat Nat}

namespace Frontier

/-- A way that is no better than the one known changes nothing. -/
theorem reach_cases (f : Frontier) (v distance hops : Nat) :
    (∃ present ≤ distance, f.queue.priority? v = some present ∧ f.reach v distance hops = f) ∨
      (∀ present, f.queue.priority? v = some present → distance < present) ∧
        f.reach v distance hops =
          { f with queue := f.queue.assign v distance, hops := (v, hops) :: f.hops } := by
  unfold reach
  rcases f.queue.pushOrDecrease_cases v distance with ⟨present, low, known, same⟩ | ⟨lower, new⟩
  · rw [same]
    exact .inl ⟨present, low, known, rfl⟩
  · rw [new]
    exact .inr ⟨lower, rfl⟩

/-- Only the vertex that has been reached may have a new distance. -/
theorem priority?_reach {v w distance other hops : Nat}
    (queued : (f.reach v distance hops).queue.priority? w = some other) :
    f.queue.priority? w = some other ∨ w = v ∧ other = distance := by
  rcases f.reach_cases v distance hops with ⟨_, _, _, same⟩ | ⟨-, new⟩
  · rw [same] at queued
    exact .inl queued
  · rw [new] at queued
    dsimp only at queued
    rw [KeyedQueue.priority?_assign] at queued
    split at queued
    · next here => exact .inr ⟨eq_of_beq here, (Option.some.inj queued).symm⟩
    · exact .inl queued

namespace Nears

theorem refl (f : Frontier) : f.Nears f := ⟨rfl, fun _ distance known => ⟨distance, le_rfl, known⟩⟩

theorem trans {last : Frontier} (first : f.Nears next) (second : next.Nears last) :
    f.Nears last := by
  refine ⟨second.settled.trans first.settled, fun v distance known => ?_⟩
  obtain ⟨shorter, low, present⟩ := first.queued v distance known
  obtain ⟨shortest, lower, last⟩ := second.queued v shorter present
  exact ⟨shortest, lower.trans low, last⟩

theorem reach (f : Frontier) (v distance hops : Nat) : f.Nears (f.reach v distance hops) := by
  rcases f.reach_cases v distance hops with ⟨_, _, _, same⟩ | ⟨lower, new⟩
  · rw [same]
    exact refl f
  · rw [new]
    refine ⟨rfl, fun w other known => ?_⟩
    dsimp only
    rw [KeyedQueue.priority?_assign]
    split
    · next here =>
      obtain rfl := eq_of_beq here
      exact ⟨distance, (lower other known).le, rfl⟩
    · exact ⟨other, le_rfl, known⟩

end Nears

/-- A vertex that has been reached is queued at that distance or nearer. -/
theorem exists_priority_reach (f : Frontier) (v distance hops : Nat) :
    ∃ shorter ≤ distance, (f.reach v distance hops).queue.priority? v = some shorter := by
  rcases f.reach_cases v distance hops with ⟨present, low, known, same⟩ | ⟨-, new⟩
  · rw [same]
    exact ⟨present, low, known⟩
  · rw [new]
    refine ⟨distance, le_rfl, ?_⟩
    dsimp only
    rw [KeyedQueue.priority?_assign, beq_self_eq_true, if_pos rfl]

end Frontier

namespace Query

/-- An edge is passed over, completes a path to the target, or reaches another vertex. -/
theorem relax_cases {result : Option Frontier} (success : q.relax stop f edge = .ok result) :
    (¬ q.Opens stop f edge ∧ result = some f) ∨
      (q.Opens stop f edge ∧ edge.other stop.vertex = q.target ∧ result = none) ∨
      (q.Opens stop f edge ∧ edge.other stop.vertex ≠ q.target ∧ result =
        some (f.reach (edge.other stop.vertex) (stop.distance + edge.weight) (stop.hops + 1))) := by
  unfold relax at success
  dsimp only at success
  split at success
  · next skipped =>
    cases success
    refine .inl ⟨fun opens => ?_, rfl⟩
    rw [opens.notSkipped] at skipped
    cases skipped
  · next notSkipped =>
    rw [Bool.not_eq_true] at notSkipped
    obtain ⟨distance, added, success⟩ := bind_eq_ok.mp success
    obtain ⟨rfl, -⟩ := addWithin_eq_ok_iff.mp added
    split at success
    · next far =>
      obtain rfl := pure_eq_ok.mp success
      exact .inl ⟨fun opens => Nat.not_le_of_lt far opens.within, rfl⟩
    · next near =>
      have opens : q.Opens stop f edge := ⟨notSkipped, Nat.le_of_not_lt near⟩
      split at success
      · next arrived =>
        obtain rfl := pure_eq_ok.mp success
        exact .inr (.inl ⟨opens, arrived, rfl⟩)
      · next passing =>
        obtain rfl := pure_eq_ok.mp success
        exact .inr (.inr ⟨opens, passing, rfl⟩)

/-- What is kept whenever a vertex is reached is kept until the target is. -/
theorem relaxAll_keeps (kept : Frontier → Prop)
    (reach : ∀ edge ∈ edges, ∀ f, kept f → q.Opens stop f edge →
      edge.other stop.vertex ≠ q.target →
      kept (f.reach (edge.other stop.vertex) (stop.distance + edge.weight) (stop.hops + 1)))
    {result : Option Frontier} (success : q.relaxAll stop edges f = .ok result) (sofar : kept f) :
    result.elim (∃ edge ∈ edges, ∃ last, kept last ∧ q.Opens stop last edge ∧
      edge.other stop.vertex = q.target) kept := by
  induction edges generalizing f with
  | nil =>
    cases success
    exact sofar
  | cons edge rest ih =>
    obtain ⟨middle, relaxed, success⟩ := bind_eq_ok.mp success
    obtain ⟨here, others⟩ := List.forall_mem_cons.mp reach
    rcases relax_cases relaxed with ⟨-, rfl⟩ | ⟨opens, arrived, rfl⟩ | ⟨opens, passing, rfl⟩
    · have later := ih others success sofar
      cases result with
      | none =>
        obtain ⟨other, member, last⟩ := later
        exact ⟨other, List.mem_cons_of_mem _ member, last⟩
      | some next => exact later
    · obtain rfl := pure_eq_ok.mp success
      exact ⟨edge, List.mem_cons_self .., f, sofar, opens, arrived⟩
    · have later := ih others success (here f sofar opens passing)
      cases result with
      | none =>
        obtain ⟨other, member, last⟩ := later
        exact ⟨other, List.mem_cons_of_mem _ member, last⟩
      | some next => exact later

theorem relaxAll_nears (success : q.relaxAll stop edges f = .ok (some next)) : f.Nears next :=
  relaxAll_keeps f.Nears (fun _ _ last sofar _ _ => sofar.trans (.reach last ..)) success (.refl f)

/-- Every edge that leads on has been driven. -/
theorem relaxAll_covers (success : q.relaxAll stop edges f = .ok (some next)) :
    ∀ edge ∈ edges, q.Opens stop f edge → ∃ shorter ≤ stop.distance + edge.weight,
      next.queue.priority? (edge.other stop.vertex) = some shorter := by
  induction edges generalizing f with
  | nil => simp
  | cons edge rest ih =>
    obtain ⟨middle, relaxed, success⟩ := bind_eq_ok.mp success
    rcases relax_cases relaxed with ⟨closed, rfl⟩ | ⟨-, -, rfl⟩ | ⟨-, -, rfl⟩
    · exact List.forall_mem_cons.mpr ⟨fun opens => (closed opens).elim, ih success⟩
    · cases success
    · refine List.forall_mem_cons.mpr ⟨fun _ => ?_, fun other member opens => ?_⟩
      · obtain ⟨shorter, low, known⟩ := f.exists_priority_reach (edge.other stop.vertex)
          (stop.distance + edge.weight) (stop.hops + 1)
        obtain ⟨shortest, lower, last⟩ := (relaxAll_nears success).queued _ _ known
        exact ⟨shortest, lower.trans low, last⟩
      · apply ih success other member
        refine ⟨?_, opens.within⟩
        have same := (Frontier.Nears.reach f (edge.other stop.vertex)
          (stop.distance + edge.weight) (stop.hops + 1)).settled
        rw [skips, same]
        exact opens.notSkipped

/-- What is kept when a vertex is settled, and whenever another one is reached from there, is kept
until the target is reached. -/
theorem visit_keeps (kept : Frontier → Prop) {result : Option Frontier}
    (success : q.visit f entry queue = .ok result) (settled : kept (f.settling entry queue))
    (reach : (f.stopAt entry).hops < q.hopLimit → ∀ edge ∈ q.graph.outgoing entry.1, ∀ last,
      kept last → q.Opens (f.stopAt entry) last edge → edge.other entry.1 ≠ q.target →
      kept (last.reach (edge.other entry.1) (entry.2 + edge.weight) (f.hopsTo entry.1 + 1))) :
    result.elim ((f.stopAt entry).hops < q.hopLimit ∧ ∃ edge ∈ q.graph.outgoing entry.1, ∃ last,
      kept last ∧ q.Opens (f.stopAt entry) last edge ∧ edge.other entry.1 = q.target) kept := by
  unfold visit at success
  split at success
  · cases success
    exact settled
  · next within =>
    have near := Nat.lt_of_not_le within
    have outcome := relaxAll_keeps kept (reach near) success settled
    cases result with
    | none => exact ⟨near, outcome⟩
    | some next => exact outcome

theorem visit_nears (success : q.visit f entry queue = .ok (some next)) :
    (f.settling entry queue).Nears next :=
  visit_keeps _ success (.refl _) fun _ _ _ last sofar _ _ => sofar.trans (.reach last ..)

/-- Every edge that leads on from a vertex near enough has been driven. -/
theorem visit_covers (success : q.visit f entry queue = .ok (some next))
    (near : (f.stopAt entry).hops < q.hopLimit) :
    ∀ edge ∈ q.graph.outgoing entry.1,
      q.Opens (f.stopAt entry) (f.settling entry queue) edge →
      ∃ shorter ≤ entry.2 + edge.weight,
        next.queue.priority? (edge.other entry.1) = some shorter := by
  rw [visit, if_neg (Nat.not_le_of_lt near)] at success
  exact relaxAll_covers success

end Query

namespace Frontier

/-- A queue stays in order. -/
theorem ordered_visit (ordered : queue.Ordered)
    (success : q.visit f entry queue = .ok (some next)) : next.queue.Ordered := by
  refine Query.visit_keeps (·.queue.Ordered) success ordered ?_
  intro _ edge _ last sofar _ _
  rcases last.reach_cases (edge.other entry.1) (entry.2 + edge.weight) (f.hopsTo entry.1 + 1) with
    ⟨_, _, _, same⟩ | ⟨-, new⟩
  · rw [same]
    exact sofar
  · rw [new]
    exact sofar.assign _ _

/-- No vertex is settled twice or queued once it is settled, and all are vertices of the graph. -/
structure Tidy (q : Query) (f : Frontier) : Prop where
  backed : f.queue.Backed
  single : f.settled.Nodup
  settled_lt : ∀ v ∈ f.settled, v < q.graph.vertexCount
  waiting : ∀ v distance, f.queue.priority? v = some distance →
    v < q.graph.vertexCount ∧ v ∉ f.settled

theorem priority?_start (source v : Nat) :
    (start source).queue.priority? v = if v == source then some 0 else none :=
  KeyedQueue.priority?_pushOrDecrease
    (show (KeyedQueue.empty : KeyedQueue Nat Nat).pushOrDecrease source 0 =
      (true, (start source).queue) from rfl) v

namespace Tidy

theorem start (known : source < q.graph.vertexCount) : (start source).Tidy q where
  backed := by
    have none : (KeyedQueue.empty : KeyedQueue Nat Nat).Backed := by
      rintro v distance ⟨⟩
    exact none.assign source 0
  single := .nil
  settled_lt := by simp [Frontier.start]
  waiting v distance queued := by
    rw [priority?_start] at queued
    split at queued
    · next here =>
      obtain rfl := eq_of_beq here
      simpa [Frontier.start] using known
    · cases queued

/-- What is popped has not been settled before. -/
theorem settling (tidy : f.Tidy q) (pops : f.queue.MayPop (some entry) queue) :
    entry.1 < q.graph.vertexCount ∧ entry.1 ∉ f.settled ∧ (f.settling entry queue).Tidy q := by
  obtain ⟨present, others⟩ := pops.priority?_eq
  obtain ⟨known, fresh⟩ := tidy.waiting _ _ present
  refine ⟨known, fresh, pops.backed tidy.backed, List.nodup_cons.mpr ⟨fresh, tidy.single⟩,
    List.forall_mem_cons.mpr ⟨known, tidy.settled_lt⟩, fun v distance queued => ?_⟩
  dsimp only [Frontier.settling] at queued ⊢
  rw [others] at queued
  split at queued
  · cases queued
  · next apart =>
    obtain ⟨inside, waits⟩ := tidy.waiting v distance queued
    exact ⟨inside, List.not_mem_cons_of_ne_of_not_mem (by simpa using apart) waits⟩

theorem reach (tidy : f.Tidy q) {v : Nat} (known : v < q.graph.vertexCount)
    (fresh : v ∉ f.settled) (distance hops : Nat) : (f.reach v distance hops).Tidy q := by
  have same := (Nears.reach f v distance hops).settled
  refine ⟨?_, same ▸ tidy.single, same ▸ tidy.settled_lt, fun w other queued => ?_⟩
  · rcases f.reach_cases v distance hops with ⟨_, _, _, same⟩ | ⟨-, new⟩
    · rw [same]
      exact tidy.backed
    · rw [new]
      exact tidy.backed.assign v distance
  · rw [same]
    rcases priority?_reach queued with before | ⟨rfl, -⟩
    · exact tidy.waiting w other before
    · exact ⟨known, fresh⟩

theorem visit (valid : q.graph.WellFormed) (tidy : f.Tidy q)
    (pops : f.queue.MayPop (some entry) queue)
    (success : q.visit f entry queue = .ok (some next)) :
    next.Tidy q ∧ next.settled = entry.1 :: f.settled := by
  obtain ⟨known, -, settled⟩ := tidy.settling pops
  refine ⟨Query.visit_keeps (·.Tidy q) success settled ?_, (Query.visit_nears success).settled⟩
  intro _ edge member last sofar opens _
  have live := (valid.mem_outgoing known).mp member
  apply sofar.reach (valid.drives_lt live.1 live.2.2).2
  have notSkipped := opens.notSkipped
  simp only [Query.skips, Bool.or_eq_false_iff, List.contains_eq_mem, decide_eq_false_iff_not]
    at notSkipped
  exact notSkipped.1.2

theorem length_le (tidy : f.Tidy q) : f.settled.length ≤ q.graph.vertexCount :=
  Graph.length_le_vertexCount tidy.settled_lt tidy.single

/-- A search settles only so many vertices. -/
theorem acc (valid : q.graph.WellFormed) (tidy : f.Tidy q) :
    Acc (fun next f => q.Turn f next) f := by
  induction left : q.graph.vertexCount - f.settled.length using Nat.strongRecOn generalizing f with
  | ind _ ih =>
    refine ⟨_, ?_⟩
    rintro next ⟨entry, queue, pops, visited⟩
    obtain ⟨later, settled⟩ := tidy.visit valid pops visited
    have bound := later.length_le
    rw [settled, List.length_cons] at bound
    refine ih _ ?_ later rfl
    rw [settled, List.length_cons]
    omega

/-- Wherever a search has come, there is an answer. -/
theorem exists_answer (valid : q.graph.WellFormed) (tidy : f.Tidy q) :
    ∃ answer, q.Answers f answer := by
  induction tidy.acc valid with
  | intro f _ ih =>
    obtain ⟨_ | entry, queue, pops⟩ := f.queue.exists_mayPop
    · exact ⟨_, .exhausted pops⟩
    · cases visited : q.visit f entry queue with
      | error failure => exact ⟨_, .failed pops visited⟩
      | ok result =>
        cases result with
        | none => exact ⟨_, .arrived pops visited⟩
        | some next =>
          obtain ⟨answer, answers⟩ := ih next ⟨entry, queue, pops, visited⟩
            (tidy.visit valid pops visited).1
          exact ⟨answer, .onward pops visited answers⟩

/-- With enough steps, the search that is run comes to one of the answers. -/
theorem answers_settle (valid : q.graph.WellFormed) (tidy : f.Tidy q) (ordered : f.queue.Ordered)
    {steps : Nat} (enough : q.graph.vertexCount < steps + f.settled.length) :
    q.Answers f (q.settle steps f) := by
  induction steps generalizing f with
  | zero =>
    have bound := tidy.length_le
    omega
  | succ steps ih =>
    obtain ⟨pops, later⟩ := ordered.mayPop
    rw [Query.settle_succ]
    rcases popped : f.queue.pop with ⟨_ | entry, queue⟩
    · rw [popped] at pops
      exact .exhausted pops
    · rw [popped] at pops later
      dsimp only at pops later ⊢
      cases visited : q.visit f entry queue with
      | error failure => exact .failed pops visited
      | ok result =>
        cases result with
        | none => exact .arrived pops visited
        | some next =>
          obtain ⟨kept, settled⟩ := tidy.visit valid pops visited
          refine .onward pops visited (ih kept (ordered_visit later visited) ?_)
          rw [settled, List.length_cons]
          omega

end Tidy

end Frontier

/-- The search that is run gives one of the answers that are possible. -/
theorem Query.mayAnswer_hasPathFrom (valid : q.graph.WellFormed)
    (known : source < q.graph.vertexCount) : q.MayAnswer source (q.hasPathFrom source) := by
  unfold MayAnswer hasPathFrom
  split
  · rfl
  · split
    · rfl
    · apply (Frontier.Tidy.start known).answers_settle valid
      · exact KeyedQueue.ordered_empty.assign source 0
      · simp [Frontier.start]

/-- Two ways of length 3 lead to the last stop before the target, over one vertex and over two. The
heap gives out the near end of the shorter one first, so that a hop is left for the target. -/
example : (do
    let g ← Graph.ofExtract ⟨List.replicate 7 ⟨0, 0⟩, [⟨0, 2, 2, false⟩, ⟨2, 1, 2, false⟩,
      ⟨0, 3, 2, false⟩, ⟨0, 4, 1, false⟩, ⟨4, 5, 1, false⟩, ⟨3, 6, 1, false⟩, ⟨5, 6, 1, false⟩,
      ⟨6, 1, 1, false⟩]⟩
    Query.hasPathFrom ⟨g, 1, 4, 3, (· == 2)⟩ 0).toOption = some true := by
  decide +kernel

end RoadHierarchy.Witness
