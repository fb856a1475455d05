import Mathlib.Data.Prod.Lex
import RoadHierarchy.Contraction.Selection
import RoadHierarchy.Proofs.Graph.Surroundings

/-! # Neighbourhoods are explored exactly

A vertex is near another one when it can be reached over live edges, with their direction left out,
through unprocessed vertices. The exploration of a neighbourhood visits, level by level, exactly the
vertices that are so many hops away, and it stops early only when nothing is left to visit or when a
vertex has been found that ranks below the centre.
-/

namespace RoadHierarchy

namespace Rank

variable {a b : Rank}

/-- Ranks are ordered lexicographically. -/
theorem before_eq_false_iff :
    a.before b = false ↔ toLex (b.place, b.id) ≤ toLex (a.place, a.id) := by
  rw [Prod.Lex.toLex_le_toLex]
  simp only [before, Bool.or_eq_false_iff, Bool.and_eq_false_iff, decide_eq_false_iff_not,
    beq_eq_false_iff_ne]
  omega

/-- Of two different vertices one ranks before the other. -/
theorem before_iff_of_ne (apart : a.id ≠ b.id) : a.before b = true ↔ b.before a = false := by
  simp only [before, Bool.or_eq_true, Bool.and_eq_true, decide_eq_true_eq, beq_iff_eq,
    Bool.or_eq_false_iff, Bool.and_eq_false_iff, decide_eq_false_iff_not, beq_eq_false_iff_ne]
  omega

end Rank

namespace Graph

/-- The second vertex can be reached from the first one with so many hops over live edges, in either
direction, such that every vertex after the first is unprocessed. -/
inductive Near (g : Graph) (v : Nat) : Nat → Nat → Prop
  | here : Near g v 0 v
  | hop {hops u w : Nat} :
      Near g v hops u → g.Joins u w → g.isProcessed w = false → Near g v (hops + 1) w

/-- What has been explored of the neighbourhood of a vertex, up to a number of hops. On the fringe
are the vertices that no way with fewer hops leads to. -/
structure Explored (g : Graph) (v hops : Nat) (seen : Neighborhood) : Prop where
  visited : ∀ w, w ∈ seen.visited ↔ ∃ n ≤ hops, g.Near v n w
  fringe : ∀ w, w ∈ seen.fringe ↔ g.Near v hops w ∧ ∀ n < hops, ¬ g.Near v n w

/-- The vertex ranks before every other unprocessed vertex within so many hops. -/
def RanksFirst (g : Graph) (radius v : Nat) : Prop :=
  ∀ hops ≤ radius, ∀ w, g.Near v hops w → w ≠ v → (g.rank v).before (g.rank w) = true

variable {g : Graph} {centre : Rank} {seen wider : Neighborhood} {level : List Nat}
  {v w u hops levels radius : Nat}

namespace Near

theorem lt (near : g.Near v hops w) (valid : g.WellFormed) (known : v < g.vertexCount) :
    w < g.vertexCount := by
  cases near with
  | here => exact known
  | hop _ joins _ => exact (joins.lt valid).2

theorem unprocessed (near : g.Near v hops w) (start : g.isProcessed v = false) :
    g.isProcessed w = false := by
  cases near with
  | here => exact start
  | hop _ _ goal => exact goal

/-- A hop that comes first. -/
theorem head (joins : g.Joins u v) (start : g.isProcessed v = false) (near : g.Near v hops w) :
    g.Near u (hops + 1) w := by
  induction near with
  | here => exact .hop .here joins start
  | hop _ onward goal ih => exact .hop ih onward goal

/-- Between unprocessed vertices, the way back has as many hops. -/
theorem symm (near : g.Near v hops w) (start : g.isProcessed v = false) : g.Near w hops v := by
  induction near with
  | here => exact .here
  | hop before joins _ ih => exact .head joins.symm (before.unprocessed start) ih

end Near

section Visit

/-- Vertices that are processed or have been visited are passed over. A vertex that ranks below the
centre ends the exploration, and any other is added. -/
theorem visit_cases (g : Graph) (centre : Rank) (seen : Neighborhood) (w : Nat) :
    ((g.isProcessed w = true ∨ w ∈ seen.visited) ∧ g.visit centre seen w = some seen) ∨
      (g.isProcessed w = false ∧ w ∉ seen.visited) ∧
        ((g.rank w).before centre = true ∧ g.visit centre seen w = none ∨
          (g.rank w).before centre = false ∧
            g.visit centre seen w = some ⟨w :: seen.visited, w :: seen.fringe⟩) := by
  unfold visit
  by_cases skipped : g.isProcessed w = true ∨ w ∈ seen.visited
  · exact .inl ⟨skipped, if_pos (by simpa using skipped)⟩
  · obtain ⟨open_, fresh⟩ := not_or.mp skipped
    rw [if_neg (by simpa using skipped)]
    refine .inr ⟨⟨Bool.eq_false_of_not_eq_true open_, fresh⟩, ?_⟩
    cases lower : (g.rank w).before centre with
    | true => exact .inl ⟨rfl, rfl⟩
    | false => exact .inr ⟨rfl, rfl⟩

/-- Visiting a level adds its unprocessed vertices. Those that had not been visited are on the fringe,
and none of them ranks before the centre. -/
theorem foldlM_visit_eq_some (success : level.foldlM (g.visit centre) seen = some wider) :
    (∀ w, w ∈ wider.visited ↔ w ∈ seen.visited ∨ w ∈ level ∧ g.isProcessed w = false) ∧
      (∀ w, w ∈ wider.fringe ↔
        w ∈ seen.fringe ∨ (w ∈ level ∧ g.isProcessed w = false) ∧ w ∉ seen.visited) ∧
      ∀ w ∈ level, g.isProcessed w = false → w ∉ seen.visited →
        (g.rank w).before centre = false := by
  induction level generalizing seen with
  | nil =>
    obtain rfl := Option.some.inj success
    simp
  | cons head rest ih =>
    rw [List.foldlM_cons, Option.bind_eq_bind, Option.bind_eq_some_iff] at success
    obtain ⟨next, visits, later⟩ := success
    obtain ⟨visited, fringe, higher⟩ := ih later
    rcases g.visit_cases centre seen head with
      ⟨skipped, same⟩ | ⟨⟨open_, fresh⟩, ⟨-, none⟩ | ⟨above, added⟩⟩
    · obtain rfl := Option.some.inj (same.symm.trans visits)
      refine ⟨fun w => ?_, fun w => ?_, fun w => ?_⟩ <;> grind
    · rw [none] at visits
      cases visits
    · obtain rfl := Option.some.inj (added.symm.trans visits)
      refine ⟨fun w => ?_, fun w => ?_, fun w => ?_⟩ <;> grind

/-- A level is not visited to its end only if an unprocessed vertex of it ranks before the centre. -/
theorem foldlM_visit_eq_none (failure : level.foldlM (g.visit centre) seen = none) :
    ∃ w ∈ level, g.isProcessed w = false ∧ w ∉ seen.visited ∧ (g.rank w).before centre = true := by
  induction level generalizing seen with
  | nil => cases failure
  | cons head rest ih =>
    rw [List.foldlM_cons] at failure
    rcases g.visit_cases centre seen head with
      ⟨-, same⟩ | ⟨⟨open_, fresh⟩, ⟨lower, -⟩ | ⟨-, added⟩⟩
    · rw [same] at failure
      obtain ⟨w, member, found⟩ := ih failure
      exact ⟨w, List.mem_cons_of_mem _ member, found⟩
    · exact ⟨head, List.mem_cons_self .., open_, fresh, lower⟩
    · rw [added] at failure
      obtain ⟨w, member, flag, unseen, lower⟩ := ih failure
      exact ⟨w, List.mem_cons_of_mem _ member, flag,
        fun listed => unseen (List.mem_cons_of_mem _ listed), lower⟩

end Visit

/-- An exploration without a fringe has nothing to visit. -/
theorem ranksLowest_of_fringe_nil (done : seen.fringe = []) :
    g.ranksLowest centre levels seen = true := by
  cases levels with
  | zero => rfl
  | succ levels =>
    have same : g.widen centre seen = some { seen with fringe := [] } := by
      rw [widen, done]
      rfl
    rw [ranksLowest, same]
    rfl

/-- Stopping at an empty level makes no difference. -/
theorem ranksLowest_succ (g : Graph) (centre : Rank) (levels : Nat) (seen : Neighborhood) :
    g.ranksLowest centre (levels + 1) seen =
      (g.widen centre seen).elim false (g.ranksLowest centre levels) := by
  rw [ranksLowest]
  cases g.widen centre seen with
  | none => rfl
  | some wider =>
    dsimp only [Option.elim_some]
    by_cases done : wider.fringe = []
    · rw [ranksLowest_of_fringe_nil done, Bool.or_true]
    · rw [List.isEmpty_eq_false_iff.mpr done, Bool.false_or]

namespace Explored

theorem start (g : Graph) (v : Nat) : g.Explored v 0 ⟨[v], [v]⟩ := by
  have only : ∀ w, w ∈ [v] ↔ g.Near v 0 w := by
    intro w
    rw [List.mem_singleton]
    constructor
    · rintro rfl
      exact .here
    · intro near
      cases near
      rfl
  refine ⟨fun w => ?_, fun w => ?_⟩
  · simp [only]
  · simp [only]

variable (explored : g.Explored v hops seen)
include explored

/-- The unprocessed vertices of the next level are one hop further away, and vertices that are so far
away have been visited or are among them. -/
theorem mem_level (valid : g.WellFormed) (known : v < g.vertexCount) (fresh : w ∉ seen.visited) :
    w ∈ seen.fringe.flatMap g.neighbors ∧ g.isProcessed w = false ↔ g.Near v (hops + 1) w := by
  rw [List.mem_flatMap]
  constructor
  · rintro ⟨⟨u, member, neighbor⟩, open_⟩
    have near := ((explored.fringe u).mp member).1
    exact near.hop ((valid.mem_neighbors_iff (near.lt valid known)).mp neighbor).2 open_
  · rintro (_ | @⟨_, u, _, near, joins, open_⟩)
    refine ⟨⟨u, (explored.fringe u).mpr ⟨near, fun n fewer sooner => fresh ?_⟩, ?_⟩, open_⟩
    · exact (explored.visited w).mpr ⟨n + 1, fewer, sooner.hop joins open_⟩
    · refine (valid.mem_neighbors_iff (near.lt valid known)).mpr ⟨?_, joins⟩
      rintro rfl
      exact fresh ((explored.visited w).mpr ⟨hops, le_rfl, near⟩)

/-- The next level extends what has been explored by one hop, and none of its vertices ranks before
the centre. -/
theorem widen_eq_some (valid : g.WellFormed) (known : v < g.vertexCount)
    (success : g.widen centre seen = some wider) :
    g.Explored v (hops + 1) wider ∧ ∀ w ∈ wider.fringe, (g.rank w).before centre = false := by
  obtain ⟨visited, fringe, higher⟩ := foldlM_visit_eq_some success
  have further : ∀ w, w ∈ wider.fringe ↔ g.Near v (hops + 1) w ∧ w ∉ seen.visited := by
    intro w
    rw [fringe w, or_iff_right List.not_mem_nil]
    exact and_congr_left (explored.mem_level valid known)
  refine ⟨⟨fun w => ?_, fun w => ?_⟩, fun w member => ?_⟩
  · by_cases old : w ∈ seen.visited
    · obtain ⟨n, bound, near⟩ := (explored.visited w).mp old
      exact iff_of_true ((visited w).mpr (.inl old)) ⟨n, Nat.le_succ_of_le bound, near⟩
    · rw [visited w, or_iff_right old, explored.mem_level valid known old]
      refine ⟨fun near => ⟨_, le_rfl, near⟩, ?_⟩
      rintro ⟨n, bound, near⟩
      rcases Nat.le_succ_iff.mp bound with sooner | rfl
      · exact absurd ((explored.visited w).mpr ⟨n, sooner, near⟩) old
      · exact near
  · rw [further w, explored.visited w]
    refine and_congr_right fun _ => ?_
    simp only [not_exists, not_and, Nat.lt_succ_iff]
  · obtain ⟨near, fresh⟩ := (further w).mp member
    obtain ⟨listed, open_⟩ := (explored.mem_level valid known fresh).mpr near
    exact higher w listed open_ fresh

/-- The exploration ends early at a vertex one hop further away that ranks before the centre. -/
theorem widen_eq_none (valid : g.WellFormed) (known : v < g.vertexCount)
    (failure : g.widen centre seen = none) :
    ∃ w, g.Near v (hops + 1) w ∧ w ∉ seen.visited ∧ (g.rank w).before centre = true := by
  obtain ⟨w, member, open_, fresh, lower⟩ := foldlM_visit_eq_none failure
  exact ⟨w, (explored.mem_level valid known fresh).mp ⟨member, open_⟩, fresh, lower⟩

/-- The centre ranks lowest within further levels if none of the vertices that these reach for the
first time ranks before it. -/
theorem ranksLowest_iff (valid : g.WellFormed) (known : v < g.vertexCount) :
    g.ranksLowest centre levels seen = true ↔ ∀ n ≤ hops + levels, ∀ w, g.Near v n w →
      w ∉ seen.visited → (g.rank w).before centre = false := by
  induction levels generalizing hops seen with
  | zero =>
    refine iff_of_true rfl fun n bound w near fresh => ?_
    exact absurd ((explored.visited w).mpr ⟨n, bound, near⟩) fresh
  | succ levels ih =>
    rw [ranksLowest_succ]
    cases widened : g.widen centre seen with
    | none =>
      obtain ⟨w, near, fresh, lower⟩ := explored.widen_eq_none valid known widened
      refine iff_of_false Bool.false_ne_true fun higher => ?_
      rw [higher _ (by omega) w near fresh] at lower
      cases lower
    | some wider =>
      obtain ⟨further, higher⟩ := explored.widen_eq_some valid known widened
      rw [Option.elim_some, ih further, Nat.add_right_comm, Nat.add_assoc]
      constructor
      · intro later n bound w near fresh
        -- What the next level visits for the first time is on its fringe, and has been compared.
        by_cases visited : w ∈ wider.visited
        · refine higher w ((further.fringe w).mpr ?_)
          obtain ⟨m, least, found⟩ := (further.visited w).mp visited
          have unseen : ∀ n < hops + 1, ¬ g.Near v n w := fun n fewer sooner =>
            fresh ((explored.visited w).mpr ⟨n, Nat.lt_succ_iff.mp fewer, sooner⟩)
          rcases Nat.lt_or_eq_of_le least with fewer | rfl
          · exact absurd found (unseen m fewer)
          · exact ⟨found, unseen⟩
        · exact later n bound w near visited
      · intro all n bound w near fresh
        refine all n bound w near fun old => fresh ?_
        obtain ⟨m, least, found⟩ := (explored.visited w).mp old
        exact (further.visited w).mpr ⟨m, Nat.le_succ_of_le least, found⟩

end Explored

/-- A vertex is independent if it ranks before all other unprocessed vertices around it. -/
theorem isIndependent_iff (valid : g.WellFormed) (known : v < g.vertexCount) :
    g.isIndependent radius v = true ↔ g.RanksFirst radius v := by
  rw [isIndependent, (Explored.start g v).ranksLowest_iff valid known, Nat.zero_add]
  simp only [RanksFirst, List.mem_singleton]
  refine forall₄_congr fun n _ w _ => forall_congr' fun apart => ?_
  exact (Rank.before_iff_of_ne (Ne.symm apart)).symm

end Graph

end RoadHierarchy
