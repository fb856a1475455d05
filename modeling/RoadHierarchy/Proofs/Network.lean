import Mathlib.Data.ENat.Lattice
import RoadHierarchy.Graph.Basic

/-! # Networks, routes and distances

A network says which edges may be driven between which vertices. The live edges of a graph are one
network, and the edges of its core or of its hierarchy are others. A route drives edges one after
the other, and the distance between two vertices is the length of a shortest route.

Lengths are natural numbers without a ceiling: a distance is infinite only when there is no route.
-/

namespace RoadHierarchy

namespace Edge

/-- The edge can be driven from `start` to `goal`. -/
def Drives (e : Edge) (start goal : Nat) : Prop :=
  (e.source = start ∧ e.target = goal) ∨
    (e.bidirectional = true ∧ e.target = start ∧ e.source = goal)

/-- The length of edges that are driven one after the other. -/
def totalWeight (edges : List Edge) : Nat := (edges.map (·.weight)).sum

/-- The vertices from which edges are driven one after the other. -/
def departures : Nat → List Edge → List Nat
  | _, [] => []
  | v, e :: rest => v :: departures (e.other v) rest

@[simp] theorem length_departures (v : Nat) (edges : List Edge) :
    (departures v edges).length = edges.length := by
  induction edges generalizing v with
  | nil => rfl
  | cons e rest ih => simp [departures, ih]

@[simp] theorem totalWeight_nil : totalWeight [] = 0 := rfl

@[simp] theorem totalWeight_cons (e : Edge) (rest : List Edge) :
    totalWeight (e :: rest) = e.weight + totalWeight rest := rfl

@[simp] theorem totalWeight_append (first second : List Edge) :
    totalWeight (first ++ second) = totalWeight first + totalWeight second := by
  simp [totalWeight]

end Edge

/-- Which edges may be driven, and from where to where. -/
abbrev Network := Edge → Nat → Nat → Prop

namespace Network

/-- The edges are driven one after the other from the first vertex to the second. -/
inductive Route (net : Network) : Nat → List Edge → Nat → Prop
  | nil (v : Nat) : Route net v [] v
  | cons {e : Edge} {u v w : Nat} {rest : List Edge} :
      net e u v → Route net v rest w → Route net u (e :: rest) w

/-- There is a route of at most this length. -/
def Reaches (net : Network) (s t limit : Nat) : Prop :=
  ∃ edges, net.Route s edges t ∧ Edge.totalWeight edges ≤ limit

/-- The length of a shortest route, infinite if there is none. -/
noncomputable def distance (net : Network) (s t : Nat) : ℕ∞ :=
  ⨅ (edges : List Edge) (_ : net.Route s edges t), (Edge.totalWeight edges : ℕ∞)

/-- The edges are a route, and no route between the same vertices is shorter. -/
def Shortest (net : Network) (s : Nat) (edges : List Edge) (t : Nat) : Prop :=
  net.Route s edges t ∧
    ∀ other, net.Route s other t → Edge.totalWeight edges ≤ Edge.totalWeight other

/-- The part of a network that joins vertices of a kind. -/
def within (net : Network) (kind : Nat → Prop) : Network :=
  fun e u w => net e u w ∧ kind u ∧ kind w

variable {net other next : Network} {s t u v w : Nat}

namespace Route

theorem append {first second : List Edge} (left : net.Route s first u)
    (right : net.Route u second t) : net.Route s (first ++ second) t := by
  induction left with
  | nil => exact right
  | cons step _ ih => exact .cons step (ih right)

/-- A route comes by a vertex between any two parts of it. -/
theorem exists_split {first second : List Edge} (route : net.Route s (first ++ second) t) :
    ∃ u, net.Route s first u ∧ net.Route u second t := by
  induction first generalizing s with
  | nil => exact ⟨s, .nil s, route⟩
  | cons e rest ih =>
    cases route with
    | cons step onward =>
      obtain ⟨u, before, after⟩ := ih onward
      exact ⟨u, .cons step before, after⟩

/-- A route that goes on departs from where it has come to. -/
theorem departures_append (drives : ∀ e u w, net e u w → e.other u = w) {first : List Edge}
    (route : net.Route s first u) (second : List Edge) :
    Edge.departures s (first ++ second) = Edge.departures s first ++ Edge.departures u second := by
  induction route with
  | nil => rfl
  | cons step _ ih =>
    simp only [List.cons_append, Edge.departures]
    rw [drives _ _ _ step, ih]

/-- What every edge keeps, a route keeps. -/
theorem keeps (kind : Nat → Prop) (step : ∀ e u w, net e u w → kind u → kind w)
    {edges : List Edge} (route : net.Route s edges t) (start : kind s) : kind t := by
  induction route with
  | nil => exact start
  | cons edge _ ih => exact ih (step _ _ _ edge start)

end Route

namespace Shortest

theorem nil (net : Network) (v : Nat) : net.Shortest v [] v :=
  ⟨.nil v, fun _ _ => Nat.zero_le _⟩

/-- Every part of a shortest route from its start on is a shortest route. -/
theorem initial {first second : List Edge} (shortest : net.Shortest s (first ++ second) t)
    (before : net.Route s first u) (after : net.Route u second t) : net.Shortest s first u := by
  refine ⟨before, fun other route => ?_⟩
  have bound := shortest.2 _ (route.append after)
  simp only [Edge.totalWeight_append] at bound
  omega

end Shortest

namespace Reaches

/-- Where there is a route, there is a shortest one. -/
theorem exists_shortest {limit : Nat} (reaches : net.Reaches s t limit) :
    ∃ edges, net.Shortest s edges t ∧ Edge.totalWeight edges ≤ limit := by
  induction limit using Nat.strongRecOn with
  | ind limit ih =>
    obtain ⟨edges, route, length⟩ := reaches
    by_cases shortest : ∀ other, net.Route s other t →
        Edge.totalWeight edges ≤ Edge.totalWeight other
    · exact ⟨edges, ⟨route, shortest⟩, length⟩
    · simp only [not_forall, Nat.not_le] at shortest
      obtain ⟨other, onward, shorter⟩ := shortest
      obtain ⟨best, least, bound⟩ := ih _ (shorter.trans_le length) ⟨other, onward, le_rfl⟩
      exact ⟨best, least, by omega⟩

theorem refl (net : Network) (v limit : Nat) : net.Reaches v v limit :=
  ⟨[], .nil v, Nat.zero_le _⟩

theorem single {e : Edge} (step : net e u w) : net.Reaches u w e.weight :=
  ⟨[e], .cons step (.nil w), by simp⟩

theorem mono {low high : Nat} (reaches : net.Reaches s t low) (bound : low ≤ high) :
    net.Reaches s t high := by
  obtain ⟨edges, route, length⟩ := reaches
  exact ⟨edges, route, length.trans bound⟩

theorem trans {first second : Nat} (left : net.Reaches s u first)
    (right : net.Reaches u t second) : net.Reaches s t (first + second) := by
  obtain ⟨before, route, length⟩ := left
  obtain ⟨after, onward, rest⟩ := right
  refine ⟨before ++ after, route.append onward, ?_⟩
  rw [Edge.totalWeight_append]
  exact Nat.add_le_add length rest

theorem head {e : Edge} {limit : Nat} (step : net e s u) (rest : net.Reaches u t limit) :
    net.Reaches s t (e.weight + limit) :=
  (single step).trans rest

/-- A network that replaces every edge of another by a route no longer replaces every route. -/
theorem of_covers (covers : ∀ e u w, other e u w → net.Reaches u w e.weight) {limit : Nat}
    (reaches : other.Reaches s t limit) : net.Reaches s t limit := by
  obtain ⟨edges, route, length⟩ := reaches
  refine mono ?_ length
  clear length
  induction route with
  | nil v => exact refl net v _
  | cons step _ ih => exact (covers _ _ _ step).trans ih

theorem of_subset (allowed : ∀ e u w, other e u w → net e u w) {limit : Nat}
    (reaches : other.Reaches s t limit) : net.Reaches s t limit :=
  of_covers (fun _ _ _ step => single (allowed _ _ _ step)) reaches

/-- A route that leaves its start for good begins with an edge to another vertex. -/
theorem first {limit : Nat} (reaches : net.Reaches s t limit) (apart : s ≠ t) :
    ∃ e u rest, net e s u ∧ u ≠ s ∧ net.Reaches u t rest ∧ e.weight + rest ≤ limit := by
  obtain ⟨edges, route, length⟩ := reaches
  induction route generalizing limit with
  | nil => exact (apart rfl).elim
  | @cons e s u t rest step tail ih =>
    rw [Edge.totalWeight_cons] at length
    by_cases stays : u = s
    · subst u
      obtain ⟨e', v, onward, leaves, away, reaches, short⟩ := ih apart le_rfl
      exact ⟨e', v, onward, leaves, away, reaches, by omega⟩
    · exact ⟨e, u, _, step, stays, ⟨rest, tail, le_rfl⟩, length⟩

/-- A route that comes to its end from elsewhere ends with an edge from another vertex. -/
theorem last {limit : Nat} (reaches : net.Reaches s t limit) (apart : s ≠ t) :
    ∃ e w rest, net.Reaches s w rest ∧ net e w t ∧ w ≠ t ∧ rest + e.weight ≤ limit := by
  obtain ⟨edges, route, length⟩ := reaches
  induction route generalizing limit with
  | nil => exact (apart rfl).elim
  | @cons e s u t rest step tail ih =>
    rw [Edge.totalWeight_cons] at length
    by_cases arrives : u = t
    · subst u
      exact ⟨e, s, 0, refl net s 0, step, apart, by omega⟩
    · obtain ⟨e', w, before, reaches, enters, away, short⟩ := ih arrives le_rfl
      exact ⟨e', w, _, head step reaches, enters, away, by omega⟩

/-- Vertices that no edge joins to one another can be taken out of a network: it is enough that
every remaining edge and every passage through a single such vertex is replaced. -/
theorem detour (gone : Nat → Prop)
    (apart : ∀ e u w, net e u w → gone u → gone w → u = w)
    (kept : ∀ e u w, net e u w → ¬ gone u → ¬ gone w → next.Reaches u w e.weight)
    (bridged : ∀ a b u v w, net a u v → net b v w → gone v → ¬ gone u → ¬ gone w → u ≠ w →
      next.Reaches u w (a.weight + b.weight))
    {limit : Nat} (reaches : net.Reaches s t limit) (start : ¬ gone s) (goal : ¬ gone t) :
    next.Reaches s t limit := by
  obtain ⟨edges, route, length⟩ := reaches
  refine mono ?_ length
  clear length
  have both : (¬ gone s → next.Reaches s t (Edge.totalWeight edges)) ∧
      (gone s → ∀ a u, net a u s → ¬ gone u →
        next.Reaches u t (a.weight + Edge.totalWeight edges)) := by
    clear start
    induction route with
    | nil v => exact ⟨fun _ => refl next v _, fun lost => (goal lost).elim⟩
    | @cons e s v t rest step tail ih =>
      obtain ⟨here, through⟩ := ih goal
      rw [Edge.totalWeight_cons]
      refine ⟨fun open_ => ?_, fun lost a u enters open_ => ?_⟩
      · by_cases closes : gone v
        · exact through closes e s step open_
        · exact (kept e s v step open_ closes).trans (here closes)
      · by_cases closes : gone v
        · obtain rfl := apart e s v step lost closes
          exact (through lost a u enters open_).mono (by omega)
        · by_cases back : u = v
          · subst u
            exact (here closes).mono (by omega)
          · rw [← Nat.add_assoc]
            exact (bridged a e u s v enters step lost open_ closes back).trans (here closes)
  exact both.1 start

end Reaches

theorem distance_le_iff {limit : Nat} : net.distance s t ≤ limit ↔ net.Reaches s t limit := by
  constructor
  · intro bound
    have strict : net.distance s t < (limit : ℕ∞) + 1 :=
      ENat.lt_add_one_iff (ENat.natCast_ne_top limit) |>.mpr bound
    simp only [distance, iInf_lt_iff] at strict
    obtain ⟨edges, route, short⟩ := strict
    refine ⟨edges, route, Nat.lt_succ_iff.mp ?_⟩
    exact_mod_cast short
  · rintro ⟨edges, route, length⟩
    refine (iInf₂_le edges route).trans ?_
    exact_mod_cast length

theorem le_distance {bound : ℕ∞}
    (longer : ∀ limit : Nat, net.Reaches s t limit → bound ≤ limit) : bound ≤ net.distance s t :=
  le_iInf₂ fun edges route => longer _ ⟨edges, route, le_rfl⟩

/-- Distances are equal when the same lengths suffice. -/
theorem distance_eq (forth : ∀ limit, net.Reaches s t limit → other.Reaches u w limit)
    (back : ∀ limit, other.Reaches u w limit → net.Reaches s t limit) :
    other.distance u w = net.distance s t :=
  le_antisymm (le_distance fun limit reaches => distance_le_iff.mpr (forth limit reaches))
    (le_distance fun limit reaches => distance_le_iff.mpr (back limit reaches))

end Network

end RoadHierarchy
