import Mathlib.Data.List.Infix
import RoadHierarchy.Proofs.HopPath.Combine

/-! # No candidate is missing

Candidates are dropped late: those that name a path that is gone stay queued until they come up.
The others are exactly the folds between two stored paths, after every merge. So once no candidate
is current, no stored path folds into another one.
-/

namespace RoadHierarchy

theorem occurrence?_eq_none {needle sequence : List Nat} :
    occurrence? needle sequence = none ↔ needle = [] ∨ ¬ needle <:+: sequence := by
  induction sequence with
  | nil => simp [occurrence?, List.infix_nil, em]
  | cons head rest ih =>
    by_cases empty : needle = []
    · simp [occurrence?, empty]
    · simp only [occurrence?, List.isEmpty_iff, empty, if_false, false_or, List.infix_cons_iff,
        ← List.isPrefixOf_iff_prefix]
      split
      · next starts => simp [starts]
      · next apart => simp [apart, ih, empty]

namespace HopIndex

variable {index : HopIndex} {candidate : FoldCandidate} {rest : List FoldCandidate}

/-- A path folds into those that its edges, one at least, occur in. -/
theorem fold?_eq_none {a b : Nat × HopPath} :
    fold? a b = none ↔ a.2.edges = [] ∨ ¬ a.2.edges <:+: b.2.edges := by
  rw [fold?, Option.map_eq_none_iff, occurrence?_eq_none]

theorem infix_of_fold? {a b : Nat × HopPath} (folded : fold? a b = some candidate) :
    a.2.edges ≠ [] ∧ a.2.edges <:+: b.2.edges := by
  by_contra apart
  rw [not_and_or, not_not, ← fold?_eq_none, folded] at apart
  cases apart

/-- The candidates are folds between two different stored paths, apart from those that name a path
that is gone. No fold between the given paths is missing. -/
structure Queued (index : HopIndex) (paths : List (Nat × HopPath)) : Prop where
  apart : ∀ candidate ∈ index.candidates, candidate.contained ≠ candidate.container
  folded : ∀ candidate ∈ index.candidates, ∀ inner outer,
    index.path? candidate.contained = some inner → index.path? candidate.container = some outer →
      fold? (candidate.contained, inner) (candidate.container, outer) = some candidate
  complete : ∀ a ∈ paths, ∀ b ∈ paths, a.1 ≠ b.1 →
    ∀ candidate, fold? a b = some candidate → candidate ∈ index.candidates

/-- A candidate for a fold of stored paths speaks of just these paths. -/
theorem Numbered.folded_of_fold (numbered : index.Numbered) {a b : Nat × HopPath}
    (left : a ∈ index.paths) (right : b ∈ index.paths) (folded : fold? a b = some candidate)
    {inner outer : HopPath} (inside : index.path? candidate.contained = some inner)
    (around : index.path? candidate.container = some outer) :
    fold? (candidate.contained, inner) (candidate.container, outer) = some candidate := by
  obtain ⟨contained, container, -⟩ := fold?_eq_some folded
  rw [contained, numbered.path?_eq_some.mpr left] at inside
  rw [container, numbered.path?_eq_some.mpr right] at around
  cases inside
  cases around
  rw [contained, container]
  exact folded

theorem Numbered.isCurrent_of_fold (numbered : index.Numbered) {a b : Nat × HopPath}
    (left : a ∈ index.paths) (right : b ∈ index.paths) (folded : fold? a b = some candidate) :
    isCurrent index.paths candidate = true := by
  obtain ⟨contained, container, -⟩ := fold?_eq_some folded
  refine isCurrent_iff.mpr ⟨a.2, b.2, ?_, ?_⟩
  · rw [contained]
    exact numbered.path?_eq_some.mpr left
  · rw [container]
    exact numbered.path?_eq_some.mpr right

theorem perm_bystanders (numbered : index.Numbered)
    (apart : candidate.contained ≠ candidate.container) {inner outer : HopPath}
    (inside : index.path? candidate.contained = some inner)
    (around : index.path? candidate.container = some outer) :
    index.paths.Perm ((candidate.contained, inner) :: (candidate.container, outer) ::
      index.bystanders candidate) := by
  have single := numbered.ids.imp Nat.ne_of_lt
  have first := perm_cons_filter single inside
  have remaining : (index.paths.filter (·.1 != candidate.contained)).lookup candidate.container =
      some outer := by
    rw [lookup_filter (· != candidate.contained), if_pos (bne_iff_ne.mpr apart.symm)]
    exact around
  have second := perm_cons_filter (single.sublist (List.filter_sublist.map _)) remaining
  rw [List.filter_filter] at second
  simp only [Bool.and_comm (_ != candidate.container)] at second
  exact first.trans (second.cons _)

/-- One merge takes a path and a path around it out, and puts one with the same edges as the latter
back in. -/
structure Exchange (index : HopIndex) (candidate : FoldCandidate) (inner outer : HopPath)
    (others : List (Nat × HopPath)) (next : HopIndex) : Prop where
  folded : fold? (candidate.contained, inner) (candidate.container, outer) = some candidate
  before : index.paths.Perm ((candidate.contained, inner) :: (candidate.container, outer) :: others)
  after : next.paths = others ++ [(index.nextId, outer.absorb inner)]

namespace Queued

variable {next : HopIndex}

theorem ofSequences (sequences : List (Nat × List Nat)) :
    (ofSequences sequences).Queued (ofSequences sequences).paths := by
  have numbered := numbered_ofSequences sequences
  have listed : ∀ candidate, candidate ∈ (HopIndex.ofSequences sequences).candidates ↔ _ :=
    fun candidate => mem_allCandidates (numbered.ids.imp Nat.ne_of_lt)
  constructor
  · intro candidate member
    obtain ⟨a, -, b, -, distinct, folded⟩ := (listed candidate).mp member
    obtain ⟨contained, container, -⟩ := fold?_eq_some folded
    rw [contained, container]
    exact distinct
  · intro candidate member inner outer inside around
    obtain ⟨a, left, b, right, -, folded⟩ := (listed candidate).mp member
    exact numbered.folded_of_fold left right folded inside around
  · intro a left b right distinct candidate folded
    exact (listed candidate).mpr ⟨a, left, b, right, distinct, folded⟩

/-- Taking out the first current candidate loses no fold between the paths it does not name. -/
theorem dropStale (sound : index.Sound) (queued : index.Queued index.paths)
    (found : nextCurrent index.paths index.candidates = some (candidate, rest)) :
    { index with candidates := rest }.Queued (index.bystanders candidate) := by
  obtain ⟨-, stale, listed, before⟩ := nextCurrent_eq_some found
  obtain ⟨-, -, -, -, within⟩ := exists_stored found
  replace within := (List.forall_mem_cons.mp within).2
  constructor
  · exact fun later member => queued.apart later (within later member)
  · exact fun later member => queued.folded later (within later member)
  · intro a left b right distinct later folded
    obtain ⟨left, stays⟩ := List.mem_filter.mp left
    obtain ⟨right, -⟩ := List.mem_filter.mp right
    have member := queued.complete a left b right distinct later folded
    rw [listed, List.mem_append, List.mem_cons] at member
    rcases member with dropped | rfl | remains
    · have current := sound.isCurrent_of_fold left right folded
      rw [before later dropped] at current
      cases current
    · obtain ⟨contained, -, -⟩ := fold?_eq_some folded
      simp [contained] at stays
    · exact remains

/-- A merge queues the folds between the new path and the others. -/
theorem merge (sound : index.Sound) (queued : index.Queued (index.bystanders candidate))
    {inner outer : HopPath} (inside : index.path? candidate.contained = some inner)
    (around : index.path? candidate.container = some outer) :
    (index.merge candidate).Queued (index.merge candidate).paths := by
  have numbered := sound.toNumbered.merge inside around
  have stored := paths_merge inside around
  have fresh : ∀ other ∈ index.paths, other.1 ≠ index.nextId := fun other there =>
    Nat.ne_of_lt (sound.fresh other.1 (List.mem_map_of_mem there))
  constructor
  · intro later queues
    rcases (mem_candidates_merge inside around).mp queues with old | ⟨other, stays, folded⟩
    · exact queued.apart later old
    · have apart := fresh other (List.mem_filter.mp stays).1
      rcases folded with folded | folded
      · obtain ⟨contained, container, -⟩ := fold?_eq_some folded
        rw [contained, container]
        exact apart.symm
      · obtain ⟨contained, container, -⟩ := fold?_eq_some folded
        rw [contained, container]
        exact apart
  · intro later queues a b first second
    rcases (mem_candidates_merge inside around).mp queues with old | ⟨other, stays, folded⟩
    · have known := sound.candidates later old
      exact queued.folded later old a b
        (path?_of_merge inside around sound.toNumbered known.contained_lt first)
        (path?_of_merge inside around sound.toNumbered known.container_lt second)
    · have there : other ∈ (index.merge candidate).paths := by
        rw [stored]
        exact List.mem_append_left _ stays
      have merged : (index.nextId, outer.absorb inner) ∈ (index.merge candidate).paths := by
        rw [stored]
        exact List.mem_append_right _ (List.mem_singleton_self _)
      rcases folded with folded | folded
      · exact numbered.folded_of_fold merged there folded first second
      · exact numbered.folded_of_fold there merged folded first second
  · intro a left b right distinct later folded
    rw [mem_candidates_merge inside around]
    rw [stored, List.mem_append, List.mem_singleton] at left right
    rcases left with left | rfl
    · rcases right with right | rfl
      · exact .inl (queued.complete a left b right distinct later folded)
      · exact .inr ⟨a, left, .inr folded⟩
    · rcases right with right | rfl
      · exact .inr ⟨b, right, .inl folded⟩
      · exact absurd rfl distinct

/-- Every merge exchanges a path and a path around it. -/
theorem exists_exchange (sound : index.Sound) (queued : index.Queued index.paths)
    (found : nextCurrent index.paths index.candidates = some (candidate, rest)) :
    ∃ inner outer others, index.Exchange candidate inner outer others
      ({ index with candidates := rest }.merge candidate) := by
  obtain ⟨inner, outer, inside, around, within⟩ := exists_stored found
  have member := within candidate (List.mem_cons_self ..)
  exact ⟨inner, outer, _, queued.folded candidate member inner outer inside around,
    perm_bystanders sound.toNumbered (queued.apart candidate member) inside around,
    paths_merge inside around⟩

theorem combining (sound : index.Sound) (queued : index.Queued index.paths)
    (step : Combining index next) : next.Queued next.paths := by
  cases step with
  | @merge candidate rest found =>
    obtain ⟨inner, outer, inside, around, within⟩ := exists_stored found
    exact (queued.dropStale sound found).merge
      (sound.dropCandidates (List.forall_mem_cons.mp within).2) inside around
  | finish idle =>
    refine ⟨fun _ member => ?_, fun _ member => ?_, fun a left b right distinct later folded => ?_⟩
    · cases member
    · cases member
    · have member := queued.complete a left b right distinct later folded
      have current := sound.isCurrent_of_fold left right folded
      rw [nextCurrent_eq_none.mp idle later member] at current
      cases current

/-- No fold goes missing while paths are combined. -/
theorem steps (sound : index.Sound) (queued : index.Queued index.paths)
    (steps : Relation.ReflTransGen Combining index next) : next.Queued next.paths := by
  induction steps with
  | refl => exact queued
  | tail before step ih => exact ih.combining (sound.steps before) step

/-- Without candidates, no path lies in another. -/
theorem apart_of_idle (queued : index.Queued index.paths) (idle : index.candidates = [])
    {a b : Nat × HopPath} (left : a ∈ index.paths) (right : b ∈ index.paths) (distinct : a.1 ≠ b.1)
    (filled : a.2.edges ≠ []) : ¬ a.2.edges <:+: b.2.edges := by
  have none : fold? a b = none := by
    refine Option.eq_none_iff_forall_ne_some.mpr fun candidate folded => ?_
    have member := queued.complete a left b right distinct candidate folded
    rw [idle] at member
    cases member
  exact (fold?_eq_none.mp none).resolve_left filled

end Queued

end HopIndex

end RoadHierarchy
