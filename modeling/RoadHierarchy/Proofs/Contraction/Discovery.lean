import RoadHierarchy.Proofs.Contraction.Witness

/-! # Witnesses are found

The search misses a witness only because of the hop limit, which it applies to the path that happens
to be noted for a vertex. If every simple shortest path to each vertex on the way has fewer hops than
the limit, the vertices on the way are settled at their distances and driven on from, in whatever
order ties are broken: until then, the next of them is queued, or an earlier vertex is.
-/

namespace RoadHierarchy.Witness

namespace Query

/-- The live edges of admissible paths, which visit no vertex that has been contracted or is avoided,
except for the one that they start from. -/
def admissible (q : Query) (source : Nat) : Network := fun e u w =>
  q.graph.live e u w ∧ (w = source ∨ q.avoids w = false ∧ q.graph.isProcessed w = false)

/-- The search starts from the vertex, or may go on to it. -/
def Visits (q : Query) (source v : Nat) : Prop :=
  v = source ∨ q.avoids v = false ∧ q.graph.isProcessed v = false

/-- Every simple shortest path to the vertex has fewer edges than the hop limit. -/
def Close (q : Query) (source v : Nat) : Prop :=
  ∀ edges, (q.admissible source).Shortest source edges v →
    (Edge.departures source edges ++ [v]).Nodup → edges.length < q.hopLimit

/-- The edges are an admissible path to the target within the limit. Every vertex before the target
lies on it at its distance, and the hop limit cannot keep the search from driving on from there. -/
structure Findable (q : Query) (source : Nat) (edges : List Edge) : Prop where
  route : (q.admissible source).Route source edges q.target
  within : Edge.totalWeight edges ≤ q.limit
  onTheWay : ∀ before after v, edges = before ++ after → after ≠ [] →
    (q.admissible source).Route source before v → (q.admissible source).Route v after q.target →
    (q.admissible source).Shortest source before v ∧ q.Close source v

/-- A vertex at its distance from the source, to which a path leads over vertices that are close and
lie on it at their distances. -/
inductive Tracked (q : Query) (source : Nat) : Nat → Nat → Prop
  | source : Tracked q source source 0
  | onward {e : Edge} {u w distance : Nat} : Tracked q source u distance → q.Close source u →
      q.admissible source e u w → distance + e.weight ≤ q.limit →
      (∀ other, (q.admissible source).Route source other w →
        distance + e.weight ≤ Edge.totalWeight other) →
      Tracked q source w (distance + e.weight)

end Query

/-- The vertex has been settled, or is queued at this distance or nearer. -/
def Frontier.Holds (f : Frontier) (v distance : Nat) : Prop :=
  v ∈ f.settled ∨ ∃ shorter ≤ distance, f.queue.priority? v = some shorter

/-- The search is on its way: the source has been met, and so have the vertices to which a settled
one leads, if it is close and has its distance. The target has not been met. -/
structure Frontier.OnTrack (q : Query) (source : Nat) (f : Frontier) : Prop extends f.Tidy q where
  sound : f.Sound q source
  within : ∀ v distance, f.queue.priority? v = some distance → v ≠ q.target ∧ distance ≤ q.limit
  begun : f.Holds source 0
  led : ∀ e u w distance, q.Tracked source u distance → q.Close source u → u ∈ f.settled →
    q.admissible source e u w → distance + e.weight ≤ q.limit → f.Holds w (distance + e.weight)
  ahead : q.target ∉ f.settled

variable {q : Query} {source v w distance : Nat} {f next : Frontier} {edge : Edge}
  {edges : List Edge} {entry : Nat × Nat} {queue : KeyedQueue Nat Nat}

namespace Query

/-- Whatever a witness may visit is admissible. -/
theorem admissible_of_admits {e : Edge} {u w : Nat} (admits : q.admits e u w) :
    q.admissible source e u w :=
  ⟨admits.1, .inr admits.2⟩

/-- A vertex that has been traced may be visited. -/
theorem Traced.visits {hops : Nat} {settled : List Nat}
    (traced : q.Traced source v distance hops settled) : q.Visits source v := by
  obtain ⟨edges, route, -⟩ := traced
  rcases List.eq_nil_or_concat' edges with rfl | ⟨first, e, rfl⟩
  · cases route
    exact .inl rfl
  · obtain ⟨u, -, last⟩ := route.exists_split
    cases last with
    | cons step arrived =>
      cases arrived
      exact .inr step.2

theorem route_admissible (route : q.admits.Route v edges w) :
    (q.admissible source).Route v edges w := by
  induction route with
  | nil v => exact .nil v
  | cons step _ ih => exact .cons (admissible_of_admits step) ih

/-- A tracked vertex has a shortest path of its length. -/
theorem Tracked.exists_shortest (tracked : q.Tracked source v distance) :
    ∃ edges, (q.admissible source).Shortest source edges v ∧
      Edge.totalWeight edges = distance := by
  induction tracked with
  | source => exact ⟨[], .nil _ source, rfl⟩
  | @onward e u w distance _ _ step _ least ih =>
    obtain ⟨edges, ⟨route, -⟩, rfl⟩ := ih
    have length : Edge.totalWeight (edges ++ [e]) = Edge.totalWeight edges + e.weight := by simp
    refine ⟨edges ++ [e], ⟨route.append (.cons step (.nil w)), ?_⟩, length⟩
    rwa [length]

/-- Of a findable path, every vertex before the target is tracked. -/
theorem Findable.tracked (findable : q.Findable source edges) {before after : List Edge}
    (parts : edges = before ++ after) (more : after ≠ [])
    (route : (q.admissible source).Route source before v)
    (onward : (q.admissible source).Route v after q.target) :
    q.Tracked source v (Edge.totalWeight before) := by
  induction before using List.reverseRecOn generalizing after v with
  | nil =>
    cases route
    exact .source
  | append_singleton first e ih =>
    obtain ⟨u, earlier, last⟩ := route.exists_split
    cases last with
    | cons step arrived =>
      cases arrived
      have rest := Network.Route.cons step onward
      have split : edges = first ++ e :: after := by simp [parts]
      have bound := findable.within
      obtain ⟨-, close⟩ := findable.onTheWay _ _ _ split (List.cons_ne_nil _ _) earlier rest
      obtain ⟨⟨-, least⟩, -⟩ := findable.onTheWay _ _ _ parts more route onward
      have length : Edge.totalWeight (first ++ [e]) = Edge.totalWeight first + e.weight := by simp
      rw [parts, Edge.totalWeight_append, length] at bound
      rw [length] at least ⊢
      exact .onward (ih split (List.cons_ne_nil _ _) earlier rest) close step (by omega) least

/-- The last edge of a findable path leads from a tracked vertex to the target. -/
theorem Findable.exists_last (findable : q.Findable source edges) (apart : source ≠ q.target) :
    ∃ v distance e, q.Tracked source v distance ∧ q.Close source v ∧
      q.admissible source e v q.target ∧ distance + e.weight ≤ q.limit := by
  have route := findable.route
  rcases List.eq_nil_or_concat' edges with rfl | ⟨first, e, rfl⟩
  · cases route
    exact (apart rfl).elim
  · obtain ⟨v, before, after⟩ := route.exists_split
    have bound := findable.within
    obtain ⟨-, close⟩ := findable.onTheWay _ _ _ rfl (List.cons_ne_nil _ _) before after
    have tracked := findable.tracked rfl (List.cons_ne_nil _ _) before after
    cases after with
    | cons step arrived =>
      cases arrived
      refine ⟨v, _, e, tracked, close, step, ?_⟩
      simpa using bound

/-- No simple path leads back to the source. -/
theorem close_source (some : 1 ≤ q.hopLimit) : q.Close source source := by
  intro edges _ simple
  cases edges with
  | nil => exact some
  | cons e rest => simp [Edge.departures] at simple

/-- A simple path has fewer edges than the graph has vertices. -/
theorem close_of_vertexCount_le (valid : q.graph.WellFormed)
    (known : source < q.graph.vertexCount) (wide : q.graph.vertexCount ≤ q.hopLimit) (v : Nat) :
    q.Close source v := by
  intro edges shortest simple
  have inside := valid.stops_lt (fun _ _ _ step => step.1) shortest.1 known
  have few := Graph.length_le_vertexCount inside simple
  rw [List.length_append, Edge.length_departures, List.length_singleton] at few
  omega

/-- Without an effective hop limit, shortest paths are findable. -/
theorem findable_of_shortest (valid : q.graph.WellFormed) (known : source < q.graph.vertexCount)
    (wide : q.graph.vertexCount ≤ q.hopLimit)
    (shortest : (q.admissible source).Shortest source edges q.target)
    (within : Edge.totalWeight edges ≤ q.limit) : q.Findable source edges where
  route := shortest.1
  within := within
  onTheWay before after v parts _ route onward := by
    rw [parts] at shortest
    exact ⟨shortest.initial route onward, close_of_vertexCount_le valid known wide v⟩

/-- Sums that do not overflow do not stop a search. -/
theorem exists_relaxAll {stop : Stop}
    (fits : ∀ edge ∈ edges, q.Visits source (edge.other stop.vertex) →
      stop.distance + edge.weight < 0x10000000000000000) :
    ∃ result, q.relaxAll stop edges f = .ok result := by
  induction edges generalizing f with
  | nil => exact ⟨_, rfl⟩
  | cons edge rest ih =>
    obtain ⟨here, others⟩ := List.forall_mem_cons.mp fits
    have relaxes : ∃ result, q.relax stop f edge = .ok result := by
      unfold relax
      dsimp only
      split
      · exact ⟨_, rfl⟩
      · next goes =>
        simp only [skips, Bool.not_eq_true, Bool.or_eq_false_iff] at goes
        have added : addWord stop.distance edge.weight = .ok (stop.distance + edge.weight) :=
          addWithin_eq_ok_iff.mpr ⟨rfl, here (.inr ⟨goes.1.1, goes.2⟩)⟩
        simp only [added, bind, Except.bind]
        split
        · exact ⟨_, rfl⟩
        · split <;> exact ⟨_, rfl⟩
    obtain ⟨_ | middle, relaxed⟩ := relaxes
    · exact ⟨none, bind_eq_ok.mpr ⟨_, relaxed, rfl⟩⟩
    · obtain ⟨result, driven⟩ := ih others
      exact ⟨result, bind_eq_ok.mpr ⟨_, relaxed, driven⟩⟩

end Query

namespace Frontier

theorem Holds.mono {farther : Nat} (holds : f.Holds v distance) (far : distance ≤ farther) :
    f.Holds v farther := by
  refine holds.imp_right ?_
  rintro ⟨shorter, low, queued⟩
  exact ⟨shorter, low.trans far, queued⟩

theorem Holds.settling (holds : f.Holds v distance)
    (pops : f.queue.MayPop (some entry) queue) : (f.settling entry queue).Holds v distance := by
  rcases holds with settled | ⟨shorter, low, queued⟩
  · exact .inl (List.mem_cons_of_mem _ settled)
  · by_cases here : v = entry.1
    · exact .inl (here ▸ List.mem_cons_self ..)
    · refine .inr ⟨shorter, low, ?_⟩
      dsimp only [Frontier.settling]
      rw [pops.priority?_eq.2, if_neg (by simpa using here)]
      exact queued

theorem Nears.holds (nears : f.Nears next) (holds : f.Holds v distance) :
    next.Holds v distance := by
  rcases holds with settled | ⟨shorter, low, queued⟩
  · exact .inl (nears.settled ▸ settled)
  · obtain ⟨shortest, lower, known⟩ := nears.queued v shorter queued
    exact .inr ⟨shortest, lower.trans low, known⟩

namespace OnTrack

theorem start (known : source < q.graph.vertexCount) (apart : source ≠ q.target) :
    (start source).OnTrack q source where
  toTidy := .start known
  sound := .start q source
  within v distance queued := by
    rw [priority?_start] at queued
    split at queued
    · next here =>
      obtain rfl := eq_of_beq here
      obtain rfl := Option.some.inj queued
      exact ⟨apart, Nat.zero_le _⟩
    · cases queued
  begun := .inr ⟨0, le_rfl, by rw [priority?_start, beq_self_eq_true, if_pos rfl]⟩
  led e u w distance _ _ settled := by cases settled
  ahead := by simp [Frontier.start]

/-- As long as a tracked vertex has not been settled, something is queued that is no farther. -/
theorem settled_or_queued (onTrack : f.OnTrack q source) (tracked : q.Tracked source v distance) :
    v ∈ f.settled ∨ ∃ w, ∃ near ≤ distance, f.queue.priority? w = some near := by
  induction tracked with
  | source => exact onTrack.begun.imp_right fun queued => ⟨source, queued⟩
  | @onward e u w distance tracked close step bound _ ih =>
    rcases ih with settled | ⟨x, near, low, queued⟩
    · exact (onTrack.led e u w distance tracked close settled step bound).imp_right
        fun queued => ⟨w, queued⟩
    · exact .inr ⟨x, near, by omega, queued⟩

/-- A tracked vertex is popped at its distance, and noted with a shortest path. So if it is close,
the search drives on from it. -/
theorem near_of_tracked (onTrack : f.OnTrack q source)
    (pops : f.queue.MayPop (some entry) queue) (tracked : q.Tracked source entry.1 distance) :
    entry.2 = distance ∧ (q.Close source entry.1 → (f.stopAt entry).hops < q.hopLimit) := by
  have present := pops.priority?_eq.1
  obtain ⟨edges, route, length, count, -, simple⟩ := onTrack.sound _ _ present
  obtain ⟨best, ⟨shortest, least⟩, rfl⟩ := tracked.exists_shortest
  have low : entry.2 ≤ Edge.totalWeight best := by
    rcases onTrack.settled_or_queued tracked with settled | ⟨w, near, low, queued⟩
    · exact ((onTrack.waiting _ _ present).2 settled).elim
    · exact (pops.le_priority onTrack.backed queued).trans low
  have high := least edges (Query.route_admissible route)
  refine ⟨by omega, fun close => ?_⟩
  have hops := close edges ⟨Query.route_admissible route, fun other onward => ?_⟩ simple
  · rwa [count] at hops
  · exact (by omega : Edge.totalWeight edges ≤ Edge.totalWeight best).trans (least other onward)

/-- From a vertex that is close and has its distance, the search drives on over every edge, unless
that leads to a vertex that has been met already. -/
theorem holds_visit (valid : q.graph.WellFormed) (onTrack : f.OnTrack q source)
    (pops : f.queue.MayPop (some entry) queue)
    (success : q.visit f entry queue = .ok (some next)) {e : Edge}
    (tracked : q.Tracked source entry.1 distance) (close : q.Close source entry.1)
    (step : q.admissible source e entry.1 w) (bound : distance + e.weight ≤ q.limit) :
    next.Holds w (distance + e.weight) := by
  obtain ⟨rfl, near⟩ := onTrack.near_of_tracked pops tracked
  have nears := Query.visit_nears success
  have goal := step.1.2.2.other
  by_cases skipped : q.skips (f.settling entry queue) w = true
  · simp only [Query.skips, Bool.or_eq_true, List.contains_eq_mem, decide_eq_true_eq] at skipped
    rcases step.2 with rfl | ⟨clear, open_⟩
    · exact (nears.holds (onTrack.begun.settling pops)).mono (Nat.zero_le _)
    · rw [clear, open_] at skipped
      simp only [Bool.false_eq_true, false_or, or_false] at skipped
      exact .inl (nears.settled ▸ skipped)
  · have opens : q.Opens (f.stopAt entry) (f.settling entry queue) e := by
      refine ⟨?_, bound⟩
      rw [Bool.not_eq_true] at skipped
      rwa [← goal] at skipped
    have driven := Query.visit_covers success (near close) e (valid.mem_outgoing_of_live step.1)
      opens
    rw [goal] at driven
    exact .inr driven

/-- Settling a vertex that does not complete a path keeps the search on track. -/
theorem visit (valid : q.graph.WellFormed) (known : source < q.graph.vertexCount)
    (onTrack : f.OnTrack q source) (pops : f.queue.MayPop (some entry) queue)
    (success : q.visit f entry queue = .ok (some next)) : next.OnTrack q source := by
  obtain ⟨present, others⟩ := pops.priority?_eq
  obtain ⟨tidy, settled⟩ := onTrack.toTidy.visit valid pops success
  have nears := Query.visit_nears success
  refine ⟨tidy, ?_, ?_, nears.holds (onTrack.begun.settling pops), ?_, ?_⟩
  · exact onTrack.sound.visit valid known pops success
  · refine Query.visit_keeps (fun last => ∀ v distance,
      last.queue.priority? v = some distance → v ≠ q.target ∧ distance ≤ q.limit) success ?_ ?_
    · intro v distance queued
      dsimp only [Frontier.settling] at queued
      rw [others] at queued
      split at queued
      · cases queued
      · exact onTrack.within v distance queued
    · intro _ edge _ last sofar opens passing v distance queued
      rcases priority?_reach queued with before | ⟨rfl, rfl⟩
      · exact sofar v distance before
      · exact ⟨passing, opens.within⟩
  · intro e u w distance tracked close member step bound
    rw [settled] at member
    rcases List.mem_cons.mp member with rfl | early
    · exact onTrack.holds_visit valid pops success tracked close step bound
    · exact nears.holds ((onTrack.led e u w distance tracked close early step bound).settling pops)
  · rw [settled]
    exact List.not_mem_cons_of_ne_of_not_mem (onTrack.within _ _ present).1.symm onTrack.ahead

/-- From a frontier that is on track, a search that gives an answer says yes if an edge leads to the
target from a tracked vertex that is close. -/
theorem found (valid : q.graph.WellFormed) (known : source < q.graph.vertexCount)
    (onTrack : f.OnTrack q source) {found : Bool} (answers : q.Answers f (.ok found)) {e : Edge}
    (tracked : q.Tracked source v distance) (close : q.Close source v)
    (step : q.admissible source e v q.target) (bound : distance + e.weight ≤ q.limit) :
    found = true := by
  generalize given : (.ok found : Except Failure Bool) = answer at answers
  induction answers with
  | @exhausted f queue pops =>
    have empty := pops.priority?_eq_none onTrack.backed
    have settled : v ∈ f.settled := by
      rcases onTrack.settled_or_queued tracked with settled | ⟨w, near, -, queued⟩
      · exact settled
      · rw [empty] at queued
        cases queued
    rcases onTrack.led e v q.target distance tracked close settled step bound with
      met | ⟨shorter, -, queued⟩
    · exact (onTrack.ahead met).elim
    · rw [empty] at queued
      cases queued
  | failed => cases given
  | arrived => exact Except.ok.inj given
  | onward pops visited _ ih => exact ih (onTrack.visit valid known pops visited) given

variable (room : ∀ e u w, q.graph.live e u w → q.Visits source u → q.Visits source w →
  q.limit + e.weight < 0x10000000000000000)
include room

/-- No sum overflows. -/
theorem exists_visit (valid : q.graph.WellFormed) (onTrack : f.OnTrack q source)
    (pops : f.queue.MayPop (some entry) queue) :
    ∃ result, q.visit f entry queue = .ok result := by
  have present := pops.priority?_eq.1
  have inside := (onTrack.waiting _ _ present).1
  have bound := (onTrack.within _ _ present).2
  unfold Query.visit
  split
  · exact ⟨_, rfl⟩
  · apply Query.exists_relaxAll
    intro edge member onward
    have fits := room _ _ _ ((valid.mem_outgoing inside).mp member)
      (onTrack.sound _ _ present).visits onward
    dsimp only [Frontier.stopAt]
    omega

/-- From a frontier that is on track, every search gives an answer. -/
theorem answers (valid : q.graph.WellFormed) (known : source < q.graph.vertexCount)
    (onTrack : f.OnTrack q source) {answer : Except Failure Bool} (answers : q.Answers f answer) :
    ∃ found, answer = .ok found := by
  induction answers with
  | exhausted => exact ⟨false, rfl⟩
  | failed pops failed =>
    obtain ⟨result, success⟩ := onTrack.exists_visit room valid pops
    rw [failed] at success
    cases success
  | arrived => exact ⟨true, rfl⟩
  | onward pops visited _ ih => exact ih (onTrack.visit valid known pops visited)

end OnTrack

end Frontier

/-- A search that gives an answer says yes if there is a findable path. -/
theorem Query.found_of_findable (valid : q.graph.WellFormed) (known : source < q.graph.vertexCount)
    (apart : source ≠ q.target) (findable : q.Findable source edges) {found : Bool}
    (given : q.MayAnswer source (.ok found)) : found = true := by
  obtain ⟨v, distance, e, tracked, close, step, bound⟩ := findable.exists_last apart
  have some : q.hopLimit ≠ 0 := by
    have start : edges ≠ [] := by
      rintro rfl
      cases findable.route
      exact apart rfl
    have near := (findable.onTheWay [] edges source rfl start (.nil source) findable.route).2
    exact (near [] (.nil _ source) (List.nodup_singleton source)).ne'
  rw [MayAnswer, if_neg some, if_neg apart] at given
  exact (Frontier.OnTrack.start known apart).found valid known given tracked close step bound

/-- Without an effective hop limit, a search that gives an answer says yes if an admissible path is
short enough. -/
theorem Query.found_of_reaches (valid : q.graph.WellFormed) (known : source < q.graph.vertexCount)
    (apart : source ≠ q.target) (wide : q.graph.vertexCount ≤ q.hopLimit) {found : Bool}
    (given : q.MayAnswer source (.ok found))
    (reaches : (q.admissible source).Reaches source q.target q.limit) : found = true := by
  obtain ⟨edges, shortest, length⟩ := reaches.exists_shortest
  exact found_of_findable valid known apart
    (findable_of_shortest valid known wide shortest length) given

/-- A search gives an answer if all edges that it may drive fit beside the limit. -/
theorem Query.exists_hasPathFrom (valid : q.graph.WellFormed)
    (known : source < q.graph.vertexCount)
    (room : ∀ e u w, q.graph.live e u w → q.Visits source u → q.Visits source w →
      q.limit + e.weight < 0x10000000000000000) : ∃ found, q.hasPathFrom source = .ok found := by
  have given := mayAnswer_hasPathFrom (q := q) valid known
  unfold MayAnswer at given
  split at given
  · exact ⟨false, given⟩
  · split at given
    · exact ⟨true, given⟩
    · next apart => exact (Frontier.OnTrack.start known apart).answers room valid known given

/-- A search misses a witness only because of the hop limit, whichever of several vertices at the
same distance it settles first. It settles vertices only so often and never gets stuck, and it
answers yes if there is a findable path, in particular over a single edge. If the hop limit is at
least the number of vertices, it decides whether an admissible path is short enough. -/
theorem Query.discovery_under_ties (reachable : q.graph.Reachable)
    (known : source < q.graph.vertexCount) (apart : source ≠ q.target) (some : 1 ≤ q.hopLimit)
    (room : ∀ e u w, q.graph.live e u w → q.limit + e.weight < 0x10000000000000000) :
    (Acc (fun next f => q.Turn f next) (.start source) ∧
        ∀ f, Relation.ReflTransGen q.Turn (.start source) f → ∃ answer, q.Answers f answer) ∧
      q.MayAnswer source (q.hasPathFrom source) ∧
      ∀ answer, q.MayAnswer source answer → ∃ found, answer = .ok found ∧
        ((∃ edges, q.Findable source edges) → found = true) ∧
        ((∃ e, q.admissible source e source q.target ∧ e.weight ≤ q.limit) → found = true) ∧
        (q.graph.vertexCount ≤ q.hopLimit →
          (found = true ↔ (q.admissible source).Reaches source q.target q.limit)) := by
  have valid := reachable.wellFormed
  have tidy : (Frontier.start source).Tidy q := .start known
  refine ⟨⟨tidy.acc valid, fun f turns => ?_⟩, mayAnswer_hasPathFrom valid known, ?_⟩
  · have later : f.Tidy q := by
      induction turns with
      | refl => exact tidy
      | tail _ turn ih =>
        obtain ⟨entry, queue, pops, visited⟩ := turn
        exact (ih.visit valid pops visited).1
    exact later.exists_answer valid
  · intro answer given
    have answers : q.Answers (.start source) answer := by
      rwa [MayAnswer, if_neg (by omega), if_neg apart] at given
    have onTrack := Frontier.OnTrack.start known apart
    obtain ⟨found, rfl⟩ :=
      onTrack.answers (fun e u w live _ _ => room e u w live) valid known answers
    refine ⟨found, rfl, ?_, ?_, fun wide => ⟨?_, found_of_reaches valid known apart wide given⟩⟩
    · rintro ⟨edges, findable⟩
      exact found_of_findable valid known apart findable given
    · rintro ⟨e, step, bound⟩
      exact onTrack.found valid known answers .source (close_source some) step (by omega)
    · rintro rfl
      obtain ⟨edges, route, -, -, length⟩ := hasWitness_of_answer valid known apart given
      exact ⟨edges, route_admissible route, length⟩

/-- The way around a block over the corner that is not avoided is found by every search, because it
is there and the hop limit is as large as the number of corners. -/
theorem Query.discovery_under_ties_block : ∃ g, Graph.ofExtract ⟨List.replicate 4 ⟨0, 0⟩,
      [⟨0, 1, 1, true⟩, ⟨0, 2, 1, true⟩, ⟨1, 3, 1, true⟩, ⟨2, 3, 1, false⟩]⟩ = .ok g ∧
    ∃ q : Query, q = ⟨g, 3, 2, 4, (· == 1)⟩ ∧
      (∀ e u w, q.graph.live e u w → q.limit + e.weight < 0x10000000000000000) ∧
      (q.admissible 0).Reaches 0 3 2 ∧ ∀ answer, q.MayAnswer 0 answer → answer = .ok true := by
  have computed : (do
      let g ← Graph.ofExtract ⟨List.replicate 4 ⟨0, 0⟩,
        [⟨0, 1, 1, true⟩, ⟨0, 2, 1, true⟩, ⟨1, 3, 1, true⟩, ⟨2, 3, 1, false⟩]⟩
      let found ← Query.hasPathFrom ⟨g, 3, 2, 4, (· == 1)⟩ 0
      return (g.vertexCount, g.edges.all (·.weight ≤ 1), found)).toOption =
        some (4, true, true) := by
    decide +kernel
  obtain ⟨g, extracted, computed⟩ := bind_eq_ok.mp (toOption_eq_some.mp computed)
  obtain ⟨found, searched, computed⟩ := bind_eq_ok.mp computed
  simp only [pure_eq_ok, Prod.mk.injEq, Array.all_eq_true', decide_eq_true_eq] at computed
  obtain ⟨size, light, rfl⟩ := computed
  let q : Query := ⟨g, 3, 2, 4, (· == 1)⟩
  have room : ∀ e u w, q.graph.live e u w → q.limit + e.weight < 0x10000000000000000 := by
    intro e u w live
    have weight := light e live.1
    have limit : q.limit = 2 := rfl
    omega
  have known : 0 < q.graph.vertexCount := by
    rw [size]
    decide
  obtain ⟨-, among, answers⟩ := discovery_under_ties (Graph.reachable_ofExtract extracted) known
    (show 0 ≠ 3 by decide) (show 1 ≤ 4 by decide) room
  have wide : q.graph.vertexCount ≤ q.hopLimit := size.le
  obtain ⟨_, ran, -, -, decides⟩ := answers _ among
  have reaches := (decides wide).mp (Except.ok.inj (ran.symm.trans searched))
  refine ⟨g, extracted, q, rfl, room, reaches, fun answer given => ?_⟩
  obtain ⟨other, rfl, -, -, settles⟩ := answers answer given
  rw [(settles wide).mpr reaches]

end RoadHierarchy.Witness
