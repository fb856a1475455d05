import RoadHierarchy.Proofs.Contraction.Search
import RoadHierarchy.Proofs.Graph.Reachable

/-! # Witnesses exist

When the search finds a path, there is one: a route over live edges, no longer than the limit and
with no more edges than allowed, whose vertices after the first are neither contracted nor avoided.
The invariant is that every queued priority is the length of such a route, with the number of edges
noted for its vertex, over vertices that have been settled, each of them once.
-/

namespace RoadHierarchy.Witness

/-- The live edges that lead to a vertex a witness may visit. -/
def Query.admits (q : Query) : Network := fun e u w =>
  q.graph.live e u w ∧ q.avoids w = false ∧ q.graph.isProcessed w = false

/-- There is a witness from `source` to the target. -/
def Query.HasWitness (q : Query) (source : Nat) : Prop :=
  ∃ edges, q.admits.Route source edges q.target ∧ edges ≠ [] ∧ edges.length ≤ q.hopLimit ∧
    Edge.totalWeight edges ≤ q.limit

/-- There is a route to `v` of exactly this length and number of edges, which departs from settled
vertices and visits no vertex twice. -/
def Query.Traced (q : Query) (source v distance hops : Nat) (settled : List Nat) : Prop :=
  ∃ edges, q.admits.Route source edges v ∧ Edge.totalWeight edges = distance ∧
    edges.length = hops ∧ Edge.departures source edges ⊆ settled ∧
    (Edge.departures source edges ++ [v]).Nodup

/-- Every queued vertex has been reached over a route of its priority and number of hops. -/
def Frontier.Sound (q : Query) (source : Nat) (f : Frontier) : Prop :=
  ∀ v distance, f.queue.priority? v = some distance →
    q.Traced source v distance (f.hopsTo v) f.settled

variable {q : Query} {source : Nat} {f next : Frontier} {stop : Stop} {edge : Edge}
  {entry : Nat × Nat} {queue : KeyedQueue Nat Nat}

namespace Query.Traced

variable {v w distance hops : Nat} {settled more : List Nat}

theorem mono (traced : q.Traced source v distance hops settled) (part : settled ⊆ more) :
    q.Traced source v distance hops more := by
  obtain ⟨edges, route, length, count, departs, simple⟩ := traced
  exact ⟨edges, route, length, count, List.Subset.trans departs part, simple⟩

/-- A route goes on from a settled vertex to one that has not been settled. -/
theorem extend (traced : q.Traced source v distance hops settled) (step : q.admits edge v w)
    (here : v ∈ settled) (fresh : w ∉ settled) :
    q.Traced source w (distance + edge.weight) (hops + 1) settled := by
  obtain ⟨edges, route, length, count, departs, simple⟩ := traced
  have onward : Edge.departures source (edges ++ [edge]) =
      Edge.departures source edges ++ [v] :=
    route.departures_append (fun _ _ _ step => step.1.2.2.other) [edge]
  have inside : Edge.departures source edges ++ [v] ⊆ settled :=
    List.append_subset.mpr ⟨departs, by simpa using here⟩
  refine ⟨edges ++ [edge], route.append (.cons step (.nil w)), ?_, ?_, ?_, ?_⟩
  · simp [length]
  · simp [count]
  · rwa [onward]
  · rw [onward]
    refine List.nodup_append.mpr ⟨simple, List.nodup_singleton w, fun u member other last => ?_⟩
    rw [List.mem_singleton.mp last]
    rintro rfl
    exact fresh (inside member)

/-- Vertices that have been traced are vertices of the graph. -/
theorem lt (valid : q.graph.WellFormed) (known : source < q.graph.vertexCount)
    (traced : q.Traced source v distance hops settled) : v < q.graph.vertexCount := by
  obtain ⟨edges, route, -⟩ := traced
  refine route.keeps (· < q.graph.vertexCount) ?_ known
  exact fun e u w step _ => (valid.drives_lt step.1.1 step.1.2.2).2

/-- A route to the target that is short enough is a witness. -/
theorem hasWitness (traced : q.Traced source q.target distance (hops + 1) settled)
    (within : distance ≤ q.limit) (near : hops < q.hopLimit) : q.HasWitness source := by
  obtain ⟨edges, route, rfl, count, -⟩ := traced
  refine ⟨edges, route, ?_, by omega, within⟩
  rintro rfl
  cases count

end Query.Traced

/-- An edge out of a settled vertex that leads on leads to a vertex that may be visited. -/
theorem Query.Opens.admits (opens : q.Opens stop f edge)
    (live : q.graph.live edge stop.vertex (edge.other stop.vertex)) :
    q.admits edge stop.vertex (edge.other stop.vertex) ∧ edge.other stop.vertex ∉ f.settled := by
  have clear := opens.notSkipped
  simp only [skips, Bool.or_eq_false_iff, List.contains_eq_mem, decide_eq_false_iff_not] at clear
  exact ⟨⟨live, clear.1.1, clear.2⟩, clear.1.2⟩

namespace Frontier.Sound

theorem start (q : Query) (source : Nat) : (Frontier.start source).Sound q source := by
  intro v distance queued
  rw [priority?_start] at queued
  split at queued
  · next here =>
    obtain rfl := eq_of_beq here
    obtain rfl := Option.some.inj queued
    refine ⟨[], .nil v, rfl, ?_, ?_, ?_⟩
    · simp [Frontier.hopsTo, Frontier.start]
    · simp [Edge.departures]
    · simp [Edge.departures]
  · cases queued

theorem reach (sound : f.Sound q source) {v distance hops : Nat}
    (traced : q.Traced source v distance hops f.settled) :
    (f.reach v distance hops).Sound q source := by
  rcases f.reach_cases v distance hops with ⟨_, _, _, same⟩ | ⟨-, new⟩
  · rw [same]
    exact sound
  · rw [new]
    intro w other queued
    dsimp only at queued ⊢
    rw [KeyedQueue.priority?_assign] at queued
    by_cases here : w = v
    · subst w
      rw [beq_self_eq_true, if_pos rfl] at queued
      obtain rfl := Option.some.inj queued
      simpa [Frontier.hopsTo] using traced
    · have apart : (w == v) = false := by simpa using here
      rw [apart, if_neg Bool.false_ne_true] at queued
      simpa [Frontier.hopsTo, List.lookup_cons, apart] using sound w other queued

/-- What is popped has been traced, and the rest stays sound. -/
theorem settling (sound : f.Sound q source) (pops : f.queue.MayPop (some entry) queue) :
    q.Traced source entry.1 entry.2 (f.hopsTo entry.1) f.settled ∧
      (f.settling entry queue).Sound q source := by
  obtain ⟨present, others⟩ := pops.priority?_eq
  refine ⟨sound _ _ present, fun v distance queued => ?_⟩
  dsimp only [Frontier.settling] at queued ⊢
  rw [others] at queued
  split at queued
  · cases queued
  · exact (sound v distance queued).mono (List.subset_cons_self ..)

/-- Settling a vertex keeps the frontier sound, or completes a witness. -/
theorem visit (valid : q.graph.WellFormed) (known : source < q.graph.vertexCount)
    (sound : f.Sound q source) (pops : f.queue.MayPop (some entry) queue)
    {result : Option Frontier} (success : q.visit f entry queue = .ok result) :
    result.elim (q.HasWitness source) (·.Sound q source) := by
  obtain ⟨traced, settled⟩ := sound.settling pops
  have here : entry.1 ∈ (f.settling entry queue).settled := List.mem_cons_self ..
  have traced := traced.mono (List.subset_cons_self entry.1 f.settled)
  have leave : ∀ edge ∈ q.graph.outgoing entry.1, ∀ last : Frontier,
      last.settled = (f.settling entry queue).settled → q.Opens (f.stopAt entry) last edge →
      q.Traced source (edge.other entry.1) (entry.2 + edge.weight) (f.hopsTo entry.1 + 1)
        last.settled := by
    intro edge member last same opens
    have live := (valid.mem_outgoing (traced.lt valid known)).mp member
    obtain ⟨admits, fresh⟩ := opens.admits live
    rw [same] at fresh ⊢
    exact traced.extend admits here fresh
  have outcome := Query.visit_keeps
    (fun last => last.Sound q source ∧ last.settled = (f.settling entry queue).settled) success
    ⟨settled, rfl⟩ fun _ edge member last sofar opens _ =>
      ⟨sofar.1.reach (leave edge member last sofar.2 opens),
        (Nears.reach last ..).settled.trans sofar.2⟩
  cases result with
  | none =>
    obtain ⟨near, edge, member, last, sofar, opens, arrived⟩ := outcome
    have traced := leave edge member last sofar.2 opens
    rw [arrived] at traced
    exact traced.hasWitness opens.within near
  | some next => exact outcome.1

/-- A search that answers yes has come upon a witness. -/
theorem hasWitness (valid : q.graph.WellFormed) (known : source < q.graph.vertexCount)
    (sound : f.Sound q source) (answers : q.Answers f (.ok true)) : q.HasWitness source := by
  generalize yes : (.ok true : Except Failure Bool) = answer at answers
  induction answers with
  | exhausted => cases yes
  | failed => cases yes
  | arrived pops visited => exact sound.visit valid known pops visited
  | onward pops visited _ ih => exact ih (sound.visit valid known pops visited) yes

end Frontier.Sound

theorem Query.hasWitness_of_answer (valid : q.graph.WellFormed)
    (known : source < q.graph.vertexCount) (apart : source ≠ q.target)
    (answers : q.MayAnswer source (.ok true)) : q.HasWitness source := by
  unfold MayAnswer at answers
  by_cases none : q.hopLimit = 0
  · rw [if_pos none] at answers
    cases answers
  · rw [if_neg none, if_neg apart] at answers
    exact (Frontier.Sound.start q source).hasWitness valid known answers

/-- The search answers yes only when there is a witness. -/
theorem Query.hasWitness_of_hasPathFrom (valid : q.graph.WellFormed)
    (known : source < q.graph.vertexCount) (apart : source ≠ q.target)
    (success : q.hasPathFrom source = .ok true) : q.HasWitness source :=
  hasWitness_of_answer valid known apart (success ▸ q.mayAnswer_hasPathFrom valid known)

/-- A search answers yes only when there is a witness, whichever of several vertices at the same
distance it settles first. The search that is run is one of them. -/
theorem Query.witness_under_ties (reachable : q.graph.Reachable)
    (known : source < q.graph.vertexCount) (apart : source ≠ q.target) :
    q.MayAnswer source (q.hasPathFrom source) ∧
      (q.MayAnswer source (.ok true) → q.HasWitness source) :=
  ⟨mayAnswer_hasPathFrom reachable.wellFormed known,
    hasWitness_of_answer reachable.wellFormed known apart⟩

/-- Two ways around a block are equally long. The search finds a witness on one of them, but goes
neither over the corner that is avoided nor against the one-way road. -/
theorem Query.witness_under_ties_block : ∃ g, Graph.ofExtract ⟨List.replicate 4 ⟨0, 0⟩,
      [⟨0, 1, 1, true⟩, ⟨0, 2, 1, true⟩, ⟨1, 3, 1, true⟩, ⟨2, 3, 1, false⟩]⟩ = .ok g ∧
    ∃ q : Query, q = ⟨g, 3, 2, 2, (· == 1)⟩ ∧ q.MayAnswer 0 (q.hasPathFrom 0) ∧
      q.hasPathFrom 0 = .ok true ∧ q.HasWitness 0 := by
  have computed : (do
      let g ← Graph.ofExtract ⟨List.replicate 4 ⟨0, 0⟩,
        [⟨0, 1, 1, true⟩, ⟨0, 2, 1, true⟩, ⟨1, 3, 1, true⟩, ⟨2, 3, 1, false⟩]⟩
      let found ← Query.hasPathFrom ⟨g, 3, 2, 2, (· == 1)⟩ 0
      return (g.vertexCount, found)).toOption = some (4, true) := by
    decide +kernel
  obtain ⟨g, extracted, computed⟩ := bind_eq_ok.mp (toOption_eq_some.mp computed)
  obtain ⟨found, searched, computed⟩ := bind_eq_ok.mp computed
  obtain ⟨size, rfl⟩ := Prod.mk.inj (pure_eq_ok.mp computed)
  have known : 0 < g.vertexCount := by omega
  obtain ⟨among, witness⟩ := witness_under_ties (q := ⟨g, 3, 2, 2, (· == 1)⟩)
    (Graph.reachable_ofExtract extracted) known (show 0 ≠ 3 by decide)
  exact ⟨g, extracted, _, rfl, among, searched, witness (searched ▸ among)⟩

end RoadHierarchy.Witness
