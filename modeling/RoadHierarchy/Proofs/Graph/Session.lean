import RoadHierarchy.Proofs.Graph.Growth
import RoadHierarchy.Proofs.Graph.Reachable

/-! # Sessions on a graph that is changed in place

The operations as programs that write to the tables one after the other, so that what has been
written before a failure stays. They check everything before they write anything: each of them does
what the operation says, or fails and leaves the graph as it was. A session runs any operations on
what the last one left, whether that failed or not; the graph stays well formed, and what it has
handed out stays as it is.
-/

namespace RoadHierarchy

/-- A program that works on a graph in place. -/
abbrev InPlace := EStateM Failure Graph

namespace InPlace

/-- Fails if the graph at hand does not pass. -/
def check (test : Graph → Except Failure Unit) : InPlace Unit := do
  match test (← get) with
  | .ok _ => return
  | .error failure => throw failure

/-- Appends a vertex, and then a place for the edges at it. -/
def addVertex (lat lon : Float) : InPlace Nat := do
  let id := (← get).vertexCount
  modify fun g => { g with vertices := g.vertices.push (.fresh id lat lon) }
  modify fun g => { g with touching := g.touching.push #[] }
  return id

/-- Appends an edge, and then notes it at its ends. -/
def pushEdge (source target weight count : Nat) (pair : Option (Nat × Nat))
    (bidirectional : Bool) : InPlace Nat := do
  let id := (← get).edgeCount
  check (·.requireEnds source target count)
  let edge := ⟨id, source, target, weight, count, bidirectional, pair, false⟩
  modify fun g => { g with edges := g.edges.push edge }
  modify fun g => { g with touching := Graph.touch g.touching id source }
  if source ≠ target then
    modify fun g => { g with touching := Graph.touch g.touching id target }
  return id

def addEdge (source target weight : Nat) (bidirectional : Bool) : InPlace Nat :=
  pushEdge source target weight 1 none bidirectional

def addShortcut (source target weight count : Nat) (pair : Nat × Nat) (bidirectional : Bool) :
    InPlace Nat := do
  check (·.requireEdge pair.1)
  check (·.requireEdge pair.2)
  pushEdge source target weight count (some pair) bidirectional

def markRemoved (e : Nat) : InPlace Unit := do
  check (·.requireEdge e)
  if ((← get).edge? e).any (·.removed) then throw (.invariant (.removedTwice e))
  modify fun g => { g with edges := g.edges.modify e ({ · with removed := true }) }

/-- Flags a vertex, and then notes its round. -/
def markProcessed (v round : Nat) : InPlace Unit := do
  check (·.requireVertex v)
  if (← get).isProcessed v then throw (.invariant (.processedTwice v))
  modify fun g => { g with vertices := g.vertices.modify v ({ · with processed := true }) }
  modify fun g => { g with vertices := g.vertices.modify v ({ · with round := some round }) }

def updateVertex (v : Nat) (change : Vertex → Vertex) : InPlace Unit := do
  check fun g => discard (g.vertex v)
  modify fun g => { g with vertices := g.vertices.modify (position g.vertexCount v) change }

end InPlace

/-- The operation in place, with the id that it hands out. -/
def Operation.inPlace : Operation → InPlace (Option Nat)
  | addVertex lat lon => some <$> InPlace.addVertex lat lon
  | addEdge source target weight bidirectional =>
      some <$> InPlace.addEdge source target weight bidirectional
  | addShortcut source target weight count pair bidirectional =>
      some <$> InPlace.addShortcut source target weight count pair bidirectional
  | markRemoved edge => do InPlace.markRemoved edge; return none
  | markProcessed vertex round => do InPlace.markProcessed vertex round; return none
  | setPriority vertex priority => do
      InPlace.updateVertex vertex ({ · with priority }); return none
  | raiseDepth vertex depth => do
      InPlace.updateVertex vertex fun old => { old with depth := max old.depth depth }
      return none

/-- The id that the operation hands out if it succeeds. -/
def Operation.answer (g : Graph) : Operation → Option Nat
  | addVertex .. => some g.vertexCount
  | addEdge .. | addShortcut .. => some g.edgeCount
  | _ => none

namespace InPlace

variable {α β : Type} {g next left : Graph}

/-- A program ends with its answer in the new graph, or with a failure in the graph it began with.
-/
def settle (g : Graph) (answer : α) : Except Failure Graph → EStateM.Result Failure Graph α
  | .ok next => .ok answer next
  | .error failure => .error failure g

theorem settle_eq_ok {answer given : α} {outcome : Except Failure Graph} :
    settle g answer outcome = .ok given next ↔ outcome = .ok next ∧ answer = given := by
  cases outcome <;> simp [settle, and_comm]

theorem settle_eq_error {answer : α} {outcome : Except Failure Graph} {failure : Failure} :
    settle g answer outcome = .error failure left ↔ outcome = .error failure ∧ left = g := by
  cases outcome <;> simp [settle, eq_comm]

/-- A check that comes first leaves the graph alone. -/
theorem run_check_bind {test : Graph → Except Failure Unit} {rest : InPlace α}
    {answer : α} {outcome : Except Failure Graph}
    (goesOn : test g = .ok () → rest.run g = settle g answer outcome) :
    (do check test; rest).run g = settle g answer (do test g; outcome) := by
  have checked : check test g = match test g with
      | .ok _ => .ok () g
      | .error failure => .error failure g := by
    change (match test g with
      | .ok _ => pure ()
      | .error failure => throw failure : InPlace Unit) g = _
    cases test g <;> rfl
  change EStateM.bind (check test) (fun _ => rest) g = _
  rw [EStateM.bind, checked]
  cases tested : test g with
  | ok done => exact goesOn tested
  | error failure => rfl

/-- What a program answers can be replaced. -/
theorem run_map {program : InPlace α} {answer : α} {outcome : Except Failure Graph} (f : α → β)
    (run : program.run g = settle g answer outcome) :
    (f <$> program).run g = settle g (f answer) outcome := by
  change EStateM.map f program g = _
  rw [EStateM.map, show program g = _ from run]
  cases outcome <;> rfl

theorem run_addVertex (lat lon : Float) :
    (addVertex lat lon).run g = settle g g.vertexCount (.ok (g.addVertex lat lon).2) := rfl

theorem run_pushEdge (source target weight count : Nat) (pair : Option (Nat × Nat))
    (bidirectional : Bool) : (pushEdge source target weight count pair bidirectional).run g =
      settle g g.edgeCount ((·.2) <$> g.pushEdge source target weight count pair bidirectional) := by
  rw [Graph.pushEdge, map_bind]
  change (do check (·.requireEnds source target count); _ : InPlace Nat).run g = _
  refine run_check_bind fun _ => ?_
  by_cases loop : source = target
  · simp only [loop, ne_eq, not_true_eq_false, if_false, if_true]
    rfl
  · simp only [loop, ne_eq, not_false_eq_true, if_false, if_true]
    rfl

theorem run_addShortcut (source target weight count : Nat) (pair : Nat × Nat)
    (bidirectional : Bool) : (addShortcut source target weight count pair bidirectional).run g =
      settle g g.edgeCount
        ((·.2) <$> g.addShortcut source target weight count pair bidirectional) := by
  simp only [Graph.addShortcut, map_bind]
  refine run_check_bind fun _ => run_check_bind fun _ => ?_
  exact run_pushEdge source target weight count (some pair) bidirectional

theorem run_markRemoved (e : Nat) :
    (markRemoved e).run g = settle g () (g.markRemoved e) := by
  refine run_check_bind fun _ => ?_
  change (if (g.edge? e).any (·.removed) = true then _ else _ : InPlace Unit).run g = _
  split <;> rfl

theorem run_markProcessed (v round : Nat) :
    (markProcessed v round).run g = settle g () (g.markProcessed v round) := by
  -- The two writes come to one.
  have twice : g.vertices.modify v ({ · with processed := true, round := some round }) =
      (g.vertices.modify v ({ · with processed := true })).modify v
        ({ · with round := some round }) := by
    refine Array.ext_getElem? fun i => ?_
    simp only [Array.getElem?_modify]
    split <;> simp [Function.comp_def]
  rw [Graph.markProcessed, twice]
  refine run_check_bind fun _ => ?_
  change (if g.isProcessed v = true then _ else _ : InPlace Unit).run g = _
  split <;> rfl

theorem run_updateVertex (v : Nat) (change : Vertex → Vertex) :
    (updateVertex v change).run g = settle g () (g.updateVertex v change) := by
  have checked : g.updateVertex v change = (do
      discard (g.vertex v)
      return { g with vertices := g.vertices.modify (position g.vertexCount v) change }) := by
    rw [Graph.updateVertex]
    cases g.vertex v <;> rfl
  rw [checked]
  exact run_check_bind fun _ => rfl

end InPlace

/-- In place, an operation does what it says, or fails and leaves the graph as it was. -/
theorem Operation.run_inPlace (operation : Operation) (g : Graph) :
    operation.inPlace.run g = InPlace.settle g (operation.answer g) (operation.perform g) := by
  cases operation with
  | addVertex lat lon => exact InPlace.run_map some (InPlace.run_addVertex lat lon)
  | addEdge source target weight bidirectional =>
    exact InPlace.run_map some (InPlace.run_pushEdge source target weight 1 none bidirectional)
  | addShortcut source target weight count pair bidirectional =>
    exact InPlace.run_map some
      (InPlace.run_addShortcut source target weight count pair bidirectional)
  | markRemoved edge => exact InPlace.run_map (fun _ => none) (InPlace.run_markRemoved edge)
  | markProcessed vertex round =>
    exact InPlace.run_map (fun _ => none) (InPlace.run_markProcessed vertex round)
  | setPriority vertex priority =>
    exact InPlace.run_map (fun _ => none) (InPlace.run_updateVertex vertex _)
  | raiseDepth vertex depth =>
    exact InPlace.run_map (fun _ => none) (InPlace.run_updateVertex vertex _)

/-- The graph that a program leaves, also where it fails. -/
def InPlace.after {α : Type} (program : InPlace α) (g : Graph) : Graph :=
  match program.run g with
  | .ok _ next => next
  | .error _ left => left

/-- The vertex as it was, except that it may have been ranked, raised and contracted. -/
structure Vertex.Persists (old new : Vertex) : Prop where
  id : new.id = old.id
  lat : new.lat = old.lat
  lon : new.lon = old.lon
  depth : old.depth ≤ new.depth
  settled : old.processed = true → new.processed = true ∧ new.round = old.round

namespace Vertex.Persists

variable {old new last : Vertex}

theorem refl (v : Vertex) : v.Persists v := ⟨rfl, rfl, rfl, le_rfl, fun done => ⟨done, rfl⟩⟩

theorem trans (first : old.Persists new) (second : new.Persists last) : old.Persists last where
  id := second.id.trans first.id
  lat := second.lat.trans first.lat
  lon := second.lon.trans first.lon
  depth := first.depth.trans second.depth
  settled done := by
    obtain ⟨still, same⟩ := first.settled done
    exact ⟨(second.settled still).1, (second.settled still).2.trans same⟩

end Vertex.Persists

namespace Graph

/-- The graph after a session, in which failures change nothing and end nothing. -/
def session (g : Graph) (operations : List Operation) : Graph :=
  operations.foldl (fun g operation => operation.inPlace.after g) g

/-- The later graph has all vertices and edges of the earlier one under their ids. -/
structure Retains (g h : Graph) : Prop where
  vertices : ∀ (i : Nat) (old : Vertex), g.vertices[i]? = some old →
    ∃ new, h.vertices[i]? = some new ∧ old.Persists new
  edges : ∀ (i : Nat) (old : Edge), g.edges[i]? = some old →
    ∃ new, h.edges[i]? = some new ∧ old.Ages new

variable {g m h : Graph}

/-- What stands in a table stays where it is when something is appended. -/
theorem getElem?_push_of_some {α : Type} {table : Array α} {i : Nat} {old : α}
    (found : table[i]? = some old) (new : α) : (table.push new)[i]? = some old := by
  obtain ⟨inside, rfl⟩ := Array.getElem?_eq_some_iff.mp found
  rw [Array.getElem?_push_lt]

namespace Retains

theorem refl (g : Graph) : g.Retains g :=
  ⟨fun _ old found => ⟨old, found, .refl old⟩, fun _ old found => ⟨old, found, .refl old⟩⟩

theorem trans (first : g.Retains m) (second : m.Retains h) : g.Retains h where
  vertices i old found := by
    obtain ⟨middle, there, young⟩ := first.vertices i old found
    obtain ⟨new, last, aged⟩ := second.vertices i middle there
    exact ⟨new, last, young.trans aged⟩
  edges i old found := by
    obtain ⟨middle, there, young⟩ := first.edges i old found
    obtain ⟨new, last, aged⟩ := second.edges i middle there
    exact ⟨new, last, young.trans aged⟩

theorem addVertex (g : Graph) (lat lon : Float) : g.Retains (g.addVertex lat lon).2 where
  vertices _ old found := ⟨old, getElem?_push_of_some found _, .refl old⟩
  edges := (refl g).edges

theorem withEdge (g : Graph) (e : Edge) : g.Retains (g.withEdge e) where
  vertices := (refl g).vertices
  edges _ old found := ⟨old, getElem?_push_of_some found e, .refl old⟩

theorem withoutEdge (g : Graph) (e : Nat) : g.Retains (g.withoutEdge e) where
  vertices := (refl g).vertices
  edges i old found := by
    rw [withoutEdge_edges, found, Option.map_some]
    refine ⟨_, rfl, ?_⟩
    split
    · exact ⟨rfl, fun _ => rfl⟩
    · exact .refl old

theorem withVertex {v : Nat} {change : Vertex → Vertex}
    (persists : ∀ vertex, g.vertices[v]? = some vertex → vertex.Persists (change vertex)) :
    g.Retains (g.withVertex v change) where
  vertices i old found := by
    rw [withVertex_vertices, found, Option.map_some]
    refine ⟨_, rfl, ?_⟩
    split
    · next here => exact persists old (here ▸ found)
    · exact .refl old
  edges := (refl g).edges

/-- Every operation retains what there was before it. -/
theorem perform {operation : Operation} (success : operation.perform g = .ok h) :
    g.Retains h := by
  cases operation with
  | addVertex lat lon =>
    obtain rfl := Except.ok.inj success
    exact addVertex g lat lon
  | addEdge source target weight bidirectional =>
    obtain ⟨⟨id, _⟩, added, rfl⟩ := map_eq_ok.mp success
    obtain ⟨-, -, rfl⟩ := pushEdge_eq_ok.mp added
    exact withEdge g _
  | addShortcut source target weight count pair bidirectional =>
    obtain ⟨⟨id, _⟩, added, rfl⟩ := map_eq_ok.mp success
    obtain ⟨-, pushed⟩ := addShortcut_eq_ok.mp added
    obtain ⟨-, -, rfl⟩ := pushEdge_eq_ok.mp pushed
    exact withEdge g _
  | markRemoved edge =>
    obtain ⟨-, rfl⟩ := markRemoved_eq_ok.mp success
    exact withoutEdge g edge
  | markProcessed vertex round =>
    obtain ⟨⟨known, flag⟩, rfl⟩ := markProcessed_eq_ok.mp success
    refine withVertex fun old found => ⟨rfl, rfl, rfl, le_rfl, fun done => ?_⟩
    obtain ⟨other, there, open_⟩ := (isProcessed_eq_false_iff known).mp flag
    obtain rfl := Option.some.inj (found.symm.trans there)
    rw [open_] at done
    cases done
  | setPriority vertex priority =>
    obtain ⟨-, rfl⟩ := updateVertex_eq_ok.mp success
    exact withVertex fun old _ => ⟨rfl, rfl, rfl, le_rfl, fun done => ⟨done, rfl⟩⟩
  | raiseDepth vertex depth =>
    obtain ⟨-, rfl⟩ := updateVertex_eq_ok.mp success
    exact withVertex fun old _ => ⟨rfl, rfl, rfl, Nat.le_max_left .., fun done => ⟨done, rfl⟩⟩

end Retains

end Graph

/-- The id names what the operation has made, as far as later operations leave it alone. -/
def Operation.Names (g : Graph) (id : Nat) : Operation → Prop
  | addVertex lat lon => ∃ v, g.vertices[id]? = some v ∧ v.id = id ∧ v.lat = lat ∧ v.lon = lon
  | addEdge source target weight bidirectional => ∃ removed,
      g.edges[id]? = some ⟨id, source, target, weight, 1, bidirectional, none, removed⟩
  | addShortcut source target weight count pair bidirectional => ∃ removed,
      g.edges[id]? = some ⟨id, source, target, weight, count, bidirectional, some pair, removed⟩
  | _ => False

namespace Operation

variable {g h : Graph} {operation : Operation} {id : Nat}

theorem Names.retained (names : operation.Names g id) (retains : g.Retains h) :
    operation.Names h id := by
  cases operation with
  | addVertex lat lon =>
    obtain ⟨old, found, named, rfl, rfl⟩ := names
    obtain ⟨new, there, persists⟩ := retains.vertices id old found
    exact ⟨new, there, persists.id.trans named, persists.lat, persists.lon⟩
  | addEdge source target weight bidirectional =>
    obtain ⟨removed, found⟩ := names
    obtain ⟨new, there, ages⟩ := retains.edges id _ found
    exact ⟨new.removed, there.trans (congrArg some ages.1)⟩
  | addShortcut source target weight count pair bidirectional =>
    obtain ⟨removed, found⟩ := names
    obtain ⟨new, there, ages⟩ := retains.edges id _ found
    exact ⟨new.removed, there.trans (congrArg some ages.1)⟩
  | markRemoved => exact names.elim
  | markProcessed => exact names.elim
  | setPriority => exact names.elim
  | raiseDepth => exact names.elim

/-- The id that an operation hands out names what it has made. -/
theorem names_answer (success : operation.perform g = .ok h)
    (answers : operation.answer g = some id) : operation.Names h id := by
  cases operation with
  | addVertex lat lon =>
    obtain rfl := Except.ok.inj success
    obtain rfl := Option.some.inj answers
    exact ⟨_, Array.getElem?_push_size, rfl, rfl, rfl⟩
  | addEdge source target weight bidirectional =>
    obtain ⟨⟨_, _⟩, added, rfl⟩ := map_eq_ok.mp success
    obtain ⟨-, -, rfl⟩ := Graph.pushEdge_eq_ok.mp added
    obtain rfl := Option.some.inj answers
    exact ⟨false, Array.getElem?_push_size⟩
  | addShortcut source target weight count pair bidirectional =>
    obtain ⟨⟨_, _⟩, added, rfl⟩ := map_eq_ok.mp success
    obtain ⟨-, pushed⟩ := Graph.addShortcut_eq_ok.mp added
    obtain ⟨-, -, rfl⟩ := Graph.pushEdge_eq_ok.mp pushed
    obtain rfl := Option.some.inj answers
    exact ⟨false, Array.getElem?_push_size⟩
  | markRemoved => cases answers
  | markProcessed => cases answers
  | setPriority => cases answers
  | raiseDepth => cases answers

/-- An operation in place succeeds with its answer, or fails and leaves the graph alone. -/
theorem after_cases (operation : Operation) (g : Graph) :
    operation.perform g = .ok (operation.inPlace.after g) ∨ operation.inPlace.after g = g := by
  rw [InPlace.after, operation.run_inPlace]
  cases operation.perform g with
  | ok next => exact .inl rfl
  | error failure => exact .inr rfl

end Operation

namespace Graph

variable {g start : Graph}

/-- What operations keep, sessions keep, whatever fails in them. -/
theorem session_keeps (kept : Graph → Prop) (keeps : ∀ (operation : Operation) (g next : Graph),
    operation.perform g = .ok next → kept g → kept next) (initial : kept g)
    (operations : List Operation) : kept (g.session operations) := by
  refine List.foldlRecOn operations _ initial fun g holds operation _ => ?_
  rcases operation.after_cases g with success | same
  · exact keeps operation g _ success holds
  · rw [same]
    exact holds

theorem session_append (g : Graph) (before after : List Operation) :
    g.session (before ++ after) = (g.session before).session after := List.foldl_append

theorem retains_session (g : Graph) (operations : List Operation) :
    g.Retains (g.session operations) :=
  session_keeps g.Retains (fun _ _ _ success earlier => earlier.trans (.perform success)) (.refl g)
    operations

/-- At every moment of every session, however it goes on and whatever fails in it: the tables of the
graph agree, what is there stays there, an id that is handed out names from then on what it was
handed out for, and an operation does what it says or fails and leaves the graph as it was. -/
theorem session_sound (initial : start = .empty ∨ ∃ extract, ofExtract extract = .ok start)
    (before after : List Operation) :
    let g := start.session before
    g.WellFormed ∧ g.Retains (start.session (before ++ after)) ∧
      ∀ operation : Operation,
        operation.inPlace.run g = InPlace.settle g (operation.answer g) (operation.perform g) ∧
          (∀ failure left, operation.inPlace.run g = .error failure left → left = g) ∧
          ∀ id next, operation.inPlace.run g = .ok (some id) next →
            operation.Names (next.session after) id := by
  intro g
  refine ⟨?wellFormed, ?retains, fun operation =>
    ⟨operation.run_inPlace g, fun failure left => ?atomic, fun id next => ?names⟩⟩
  case wellFormed =>
    refine session_keeps WellFormed (fun _ _ _ success valid => valid.perform success) ?_ before
    rcases initial with rfl | ⟨extract, extracted⟩
    · exact .empty
    · exact (reachable_ofExtract extracted).wellFormed
  case retains =>
    rw [session_append]
    exact retains_session g after
  case atomic =>
    rw [operation.run_inPlace, InPlace.settle_eq_error]
    exact fun failed => failed.2
  case names =>
    rw [operation.run_inPlace, InPlace.settle_eq_ok]
    rintro ⟨success, answers⟩
    exact (Operation.names_answer success answers).retained (retains_session next after)

/-- A session in which every second operation fails. -/
theorem session_sound_failures : ∃ start,
    ofExtract ⟨[⟨0, 0⟩, ⟨0, 0⟩], [⟨0, 1, 5, true⟩]⟩ = .ok start ∧
    let g := start.session [.markProcessed 1 3, .markProcessed 1 4,
      .addShortcut 1 0 4 2 (0, 0) false, .addShortcut 0 1 5 1 (0, 7) false, .markRemoved 0]
    g.edges = #[⟨0, 0, 1, 5, 1, true, none, true⟩, ⟨1, 1, 0, 4, 2, false, some (0, 0), false⟩] ∧
    g.vertices.map Vertex.round = #[none, some 3] ∧ g.WellFormed ∧
    ∃ failure, (Operation.markRemoved 0).inPlace.run g = .error failure g := by
  have computed : (do
      let start ← ofExtract ⟨[⟨0, 0⟩, ⟨0, 0⟩], [⟨0, 1, 5, true⟩]⟩
      let g := start.session [.markProcessed 1 3, .markProcessed 1 4,
        .addShortcut 1 0 4 2 (0, 0) false, .addShortcut 0 1 5 1 (0, 7) false, .markRemoved 0]
      return (g.edges, g.vertices.map Vertex.round,
        ((Operation.markRemoved 0).perform g).toOption.isSome)).toOption =
      some (#[⟨0, 0, 1, 5, 1, true, none, true⟩, ⟨1, 1, 0, 4, 2, false, some (0, 0), false⟩],
        #[none, some 3], false) := by
    decide +kernel
  obtain ⟨start, extracted, computed⟩ := bind_eq_ok.mp (toOption_eq_some.mp computed)
  have values := pure_eq_ok.mp computed
  simp only [Prod.mk.injEq] at values
  obtain ⟨edges, rounds, refused⟩ := values
  obtain ⟨valid, -, each⟩ := session_sound (.inr ⟨_, extracted⟩) [.markProcessed 1 3,
    .markProcessed 1 4, .addShortcut 1 0 4 2 (0, 0) false, .addShortcut 0 1 5 1 (0, 7) false,
    .markRemoved 0] []
  refine ⟨start, extracted, edges, rounds, valid, ?_⟩
  rw [(each (.markRemoved 0)).1]
  cases performed : (Operation.markRemoved 0).perform _ with
  | ok next => 
    rw [performed] at refused
    cases refused
  | error failure => exact ⟨failure, rfl⟩

end Graph

end RoadHierarchy
