import Mathlib.Data.Finset.Max
import RoadHierarchy.Proofs.Contraction.Neighborhood
import RoadHierarchy.Proofs.Contraction.Round
import RoadHierarchy.Proofs.Queue.Agenda

/-! # Selected vertices are independent

A vertex is selected when it ranks below all unprocessed vertices around it. Two selected vertices
that were joined by an edge would each rank below the other.
-/

namespace RoadHierarchy.Graph

variable {g : Graph} {radius u v w : Nat}

/-- Among the unprocessed vertices one ranks before all others. -/
theorem exists_lowest (g : Graph) (left : g.unprocessed ≠ []) :
    ∃ v ∈ g.unprocessed, ∀ w ∈ g.unprocessed, (g.rank w).before (g.rank v) = false := by
  obtain ⟨v, member, least⟩ := Finset.exists_min_image g.unprocessed.toFinset
    (fun v => toLex ((g.rank v).place, (g.rank v).id))
    (List.toFinset_nonempty_iff _ |>.mpr left)
  refine ⟨v, List.mem_toFinset.mp member, fun w other => ?_⟩
  exact Rank.before_eq_false_iff.mpr (least w (List.mem_toFinset.mpr other))

theorem mem_independentSet {v : Nat} : v ∈ g.independentSet radius ↔
    v ∈ g.unprocessed ∧ g.isIndependent radius v = true := by
  rw [independentSet, List.mem_filter, ranking, (Agenda.perm_ofList _ _).mem_iff]

theorem lt_of_mem_independentSet (valid : g.WellFormed) {v : Nat}
    (member : v ∈ g.independentSet radius) : v < g.vertexCount :=
  (valid.mem_unprocessed.mp (mem_independentSet.mp member).1).1

/-- Selected are the unprocessed vertices that rank before all others around them. -/
theorem mem_independentSet_iff (valid : g.WellFormed) :
    v ∈ g.independentSet radius ↔ v ∈ g.unprocessed ∧ g.RanksFirst radius v := by
  rw [mem_independentSet]
  exact and_congr_right fun open_ => isIndependent_iff valid (valid.mem_unprocessed.mp open_).1

/-- Selected vertices are further apart than the radius. -/
theorem lt_of_near (valid : g.WellFormed) (start : v ∈ g.independentSet radius)
    (goal : w ∈ g.independentSet radius) (apart : v ≠ w) {hops : Nat} (near : g.Near v hops w) :
    radius < hops := by
  obtain ⟨open_, first⟩ := (mem_independentSet_iff valid).mp start
  obtain ⟨-, second⟩ := (mem_independentSet_iff valid).mp goal
  by_contra within
  have within := Nat.le_of_not_lt within
  have back := near.symm (valid.mem_unprocessed.mp open_).2
  have above := first hops within w near apart.symm
  have below := second hops within v back apart
  rw [(Rank.before_iff_of_ne apart.symm).mp below] at above
  cases above

/-- With a radius of at least one, no live edge joins two selected vertices. -/
theorem independent_independentSet (valid : g.WellFormed) (positive : 0 < radius) :
    g.Independent (g.independentSet radius) := by
  intro e member alive source target
  by_contra apart
  have joins : g.Joins e.source e.target := ⟨e, member, alive, .inl ⟨rfl, rfl⟩⟩
  have open_ := (valid.mem_unprocessed.mp (mem_independentSet.mp target).1).2
  have far := lt_of_near valid source target apart (.hop .here joins open_)
  omega

theorem nodup_independentSet (valid : g.WellFormed) (radius : Nat) :
    (g.independentSet radius).Nodup :=
  ((Agenda.perm_ofList _ _).nodup_iff.mpr valid.unprocessed_nodup).filter _

/-- While a vertex is unprocessed, there is one to contract. -/
theorem independentSet_ne_nil (valid : g.WellFormed) (left : g.unprocessed ≠ []) :
    g.independentSet radius ≠ [] := by
  obtain ⟨v, member, lowest⟩ := exists_lowest g left
  obtain ⟨known, open_⟩ := valid.mem_unprocessed.mp member
  have first : g.RanksFirst radius v := by
    intro hops _ w near apart
    have other := valid.mem_unprocessed.mpr ⟨near.lt valid known, near.unprocessed open_⟩
    exact (Rank.before_iff_of_ne apart.symm).mpr (lowest w other)
  exact List.ne_nil_of_mem ((mem_independentSet_iff valid).mpr ⟨member, first⟩)

/-- The ranking has the unprocessed vertices in ascending rank. -/
theorem pairwise_ranking (valid : g.WellFormed) :
    g.ranking.Pairwise fun u w => (g.rank u).before (g.rank w) = true := by
  have decides : Agenda.Decides (fun u w => (g.rank u).before (g.rank w))
      (fun u w => (g.rank w).before (g.rank u) = false) := by
    refine ⟨fun u w early => ?_, fun u w late => late, fun u v w first second => ?_⟩
    · have apart : u ≠ w := by
        rintro rfl
        simp [Rank.before] at early
      exact (Rank.before_iff_of_ne apart).mp early
    · rw [Rank.before_eq_false_iff] at first second ⊢
      exact first.trans second
  have single : g.ranking.Nodup :=
    (Agenda.perm_ofList _ _).nodup_iff.mpr valid.unprocessed_nodup
  refine (decides.pairwise_ofList g.unprocessed).imp₂ (fun u w higher apart => ?_) single
  exact (Rank.before_iff_of_ne apart).mpr higher

/-- Selection is exact. A vertex is found independent just when it ranks before every other
unprocessed vertex within the radius. Selected are all such vertices that are unprocessed, each once
and in ascending rank, and one at least while any vertex is unprocessed. They are further apart than
the radius, so that no live edge joins two of them. -/
theorem independentSet_exact (reachable : g.Reachable) (positive : 1 ≤ radius) :
    (∀ v < g.vertexCount, ∃ answer, g.independence radius v = .ok answer ∧
      (answer = true ↔ g.RanksFirst radius v)) ∧
    (∀ v, v ∈ g.independentSet radius ↔ v ∈ g.unprocessed ∧ g.RanksFirst radius v) ∧
    (g.independentSet radius).Nodup ∧
    (g.independentSet radius).Pairwise (fun u w => (g.rank u).before (g.rank w) = true) ∧
    (g.unprocessed ≠ [] → g.independentSet radius ≠ []) ∧
    (∀ u ∈ g.independentSet radius, ∀ w ∈ g.independentSet radius, u ≠ w →
      ∀ hops, g.Near u hops w → radius < hops) ∧
    g.Independent (g.independentSet radius) := by
  have valid := reachable.wellFormed
  refine ⟨fun v known => ?_, fun v => mem_independentSet_iff valid, nodup_independentSet valid radius,
    (pairwise_ranking valid).filter _, independentSet_ne_nil valid,
    fun u start w goal apart hops near => lt_of_near valid start goal apart near,
    independent_independentSet valid positive⟩
  obtain ⟨vertex, found⟩ := exists_vertex known
  exact ⟨_, bind_eq_ok.mpr ⟨vertex, found, rfl⟩, isIndependent_iff valid known⟩

/-- Two junctions with a third one between them, all of the same priority: the outer two are two hops
apart, and they are selected for a radius of one. -/
theorem independentSet_exact_row : ∃ g, ofExtract
      ⟨List.replicate 3 ⟨0, 0⟩, [⟨0, 2, 1, true⟩, ⟨1, 2, 1, false⟩]⟩ = .ok g ∧
    (∀ v, v ∈ g.independentSet 1 ↔ v = 0 ∨ v = 1) ∧ ∀ hops, g.Near 0 hops 1 → 1 < hops := by
  obtain ⟨g, extracted, vertices, edges⟩ : ∃ g, ofExtract
        ⟨List.replicate 3 ⟨0, 0⟩, [⟨0, 2, 1, true⟩, ⟨1, 2, 1, false⟩]⟩ = .ok g ∧
      g.vertices = #[.fresh 0 0 0, .fresh 1 0 0, .fresh 2 0 0] ∧
      g.edges = #[⟨0, 0, 2, 1, 1, true, none, false⟩, ⟨1, 1, 2, 1, 1, false, none, false⟩] :=
    ⟨_, rfl, rfl, rfl⟩
  have reachable := reachable_ofExtract extracted
  have size : g.vertexCount = 3 := by rw [vertexCount, vertices]; rfl
  have joins : ∀ u w, g.Joins u w ↔ (u = 0 ∨ u = 1) ∧ w = 2 ∨ u = 2 ∧ (w = 0 ∨ w = 1) := by
    intro u w
    simp only [Joins, edges]
    simp
    omega
  have fresh : ∀ v < 3, g.isProcessed v = false ∧ g.rank v = ⟨place 0, v⟩ := by
    intro v known
    have cases : v = 0 ∨ v = 1 ∨ v = 2 := by omega
    rcases cases with rfl | rfl | rfl <;>
      simp [isProcessed, Graph.rank, vertex?, position, size, vertices, Vertex.fresh]
  have before : ∀ v < 3, ∀ w < 3, (g.rank v).before (g.rank w) = true ↔ v < w := by
    intro v known w there
    simp [fresh v known, fresh w there, Rank.before]
  have beside : ∀ {hops v w}, g.Near v hops w → hops ≤ 1 → w = v ∨ g.Joins v w := by
    intro hops v w near within
    cases near with
    | here => exact .inl rfl
    | hop before last _ =>
      cases before with
      | here => exact .inr last
      | hop => omega
  have first : ∀ v < 3, g.RanksFirst 1 v ↔ v ≠ 2 := by
    intro v known
    constructor
    · rintro lowest rfl
      have near : g.Near 2 1 0 := .hop .here ((joins 2 0).mpr (by omega)) (fresh 0 (by omega)).1
      have := (before 2 (by omega) 0 (by omega)).mp (lowest 1 (by omega) 0 near (by omega))
      omega
    · intro outer hops within w near apart
      have last := (joins v w).mp ((beside near within).resolve_left apart)
      exact (before v known w (by omega)).mpr (by omega)
  obtain ⟨-, members, -, -, -, apart, -⟩ := @independentSet_exact g 1 reachable (by decide)
  have selected : ∀ v, v ∈ g.independentSet 1 ↔ v = 0 ∨ v = 1 := by
    intro v
    rw [members, reachable.wellFormed.mem_unprocessed, size]
    constructor
    · rintro ⟨⟨known, -⟩, lowest⟩
      have := (first v known).mp lowest
      omega
    · intro outer
      have known : v < 3 := by omega
      exact ⟨⟨known, (fresh v known).1⟩, (first v known).mpr (by omega)⟩
  exact ⟨g, extracted, selected,
    apart 0 ((selected 0).mpr (.inl rfl)) 1 ((selected 1).mpr (.inr rfl)) (by decide)⟩

end RoadHierarchy.Graph
