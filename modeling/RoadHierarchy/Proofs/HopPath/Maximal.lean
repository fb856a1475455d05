import Mathlib.Algebra.BigOperators.Group.List.Basic
import Mathlib.Algebra.Ring.Nat
import Mathlib.Data.List.Dedup
import Mathlib.Data.List.Pairwise
import RoadHierarchy.Proofs.HopPath.Candidates

/-! # Combining leaves the maximal sequences

A merge drops one sequence that occurs in another one, and nothing else. Whatever the order of the
merges, what is left in the end are the sequences that occur in no other, once each. Empty sequences
are never merged, so each of them keeps a path of its own.
-/

namespace RoadHierarchy

/-- The sequences that are not empty and occur in no different one, each once. -/
def maximalSequences (sequences : List (List Nat)) : List (List Nat) :=
  sequences.dedup.filter fun edges =>
    edges ≠ [] ∧ ∀ other ∈ sequences, edges <:+: other → other = edges

/-- The second list is what remains of the first one when as many sequences have been dropped. Each
of them is not empty and still occurs in what remains. -/
def Drops (count : Nat) (before after : List (List Nat)) : Prop :=
  ∃ dropped, dropped.length = count ∧ before.Perm (dropped ++ after) ∧
    ∀ edges ∈ dropped, edges ≠ [] ∧ ∃ other ∈ after, edges <:+: other

/-- Neither of two sequences occurs in the other, apart from empty ones. -/
def Unrelated (a b : List Nat) : Prop :=
  (a ≠ [] → ¬ a <:+: b) ∧ (b ≠ [] → ¬ b <:+: a)

instance : Std.Symm Unrelated where
  symm _ _ := And.symm

theorem mem_maximalSequences {edges : List Nat} {sequences : List (List Nat)} :
    edges ∈ maximalSequences sequences ↔ edges ∈ sequences ∧ edges ≠ [] ∧
      ∀ other ∈ sequences, edges <:+: other → other = edges := by
  simp only [maximalSequences, List.mem_filter, List.mem_dedup, decide_eq_true_eq]

theorem nodup_maximalSequences (sequences : List (List Nat)) : (maximalSequences sequences).Nodup :=
  (List.nodup_dedup sequences).filter _

namespace Drops

variable {count more : Nat} {before middle after : List (List Nat)}

theorem refl (sequences : List (List Nat)) : Drops 0 sequences sequences :=
  ⟨[], rfl, .refl _, fun _ member => by cases member⟩

theorem exists_infix (drops : Drops count before after) {edges : List Nat}
    (given : edges ∈ before) :
    ∃ other ∈ after, edges <:+: other := by
  obtain ⟨dropped, -, perm, inside⟩ := drops
  rcases List.mem_append.mp (perm.mem_iff.mp given) with gone | stays
  · exact (inside edges gone).2
  · exact ⟨edges, stays, List.infix_refl edges⟩

theorem trans (first : Drops count before middle) (second : Drops more middle after) :
    Drops (count + more) before after := by
  obtain ⟨dropped, length, perm, inside⟩ := first
  obtain ⟨later, longer, further, within⟩ := id second
  refine ⟨dropped ++ later, ?_, ?_, fun edges member => ?_⟩
  · rw [List.length_append, length, longer]
  · rw [List.append_assoc]
    exact perm.trans (further.append_left dropped)
  · rcases List.mem_append.mp member with early | late
    · obtain ⟨filled, other, there, occurs⟩ := inside edges early
      obtain ⟨last, stays, lies⟩ := second.exists_infix there
      exact ⟨filled, last, stays, occurs.trans lies⟩
    · exact within edges late

theorem length (drops : Drops count before after) : count + after.length = before.length := by
  obtain ⟨dropped, length, perm, -⟩ := drops
  rw [perm.length_eq, List.length_append, length]

theorem subset (drops : Drops count before after) : after ⊆ before := by
  obtain ⟨dropped, -, perm, -⟩ := drops
  exact fun edges member => perm.mem_iff.mpr (List.mem_append_right dropped member)

theorem count_nil (drops : Drops count before after) : after.count [] = before.count [] := by
  obtain ⟨dropped, -, perm, inside⟩ := drops
  have none : dropped.count [] = 0 := List.count_eq_zero.mpr fun member => (inside [] member).1 rfl
  rw [perm.count_eq, List.count_append, none, Nat.zero_add]

/-- When no sequence that is left occurs in another, those that are left are the maximal ones and
the empty ones. -/
theorem perm_maximalSequences (drops : Drops count before after)
    (apart : after.Pairwise Unrelated) :
    after.Perm (maximalSequences before ++ List.replicate (before.count []) []) := by
  have only : ∀ edges ∈ after, edges ≠ [] → ∀ other ∈ after, edges <:+: other → other = edges := by
    intro edges left filled other right occurs
    by_contra different
    exact (apart.forall left right (Ne.symm different)).1 filled occurs
  have single : (after.filter (· ≠ [])).Nodup := by
    refine List.Pairwise.imp_of_mem ?_ (apart.sublist List.filter_sublist)
    rintro edges other left - unrelated rfl
    exact unrelated.1 (of_decide_eq_true (List.mem_filter.mp left).2) (List.infix_refl _)
  have filled : (after.filter (· ≠ [])).Perm (maximalSequences before) := by
    refine (List.perm_ext_iff_of_nodup single (nodup_maximalSequences before)).mpr fun edges => ?_
    rw [List.mem_filter, mem_maximalSequences, decide_eq_true_eq]
    constructor
    · rintro ⟨member, nonempty⟩
      refine ⟨drops.subset member, nonempty, fun other given occurs => ?_⟩
      obtain ⟨last, stays, lies⟩ := drops.exists_infix given
      obtain rfl := only edges member nonempty last stays (occurs.trans lies)
      exact lies.eq_of_length_le occurs.length_le
    · rintro ⟨given, nonempty, maximal⟩
      obtain ⟨last, stays, lies⟩ := drops.exists_infix given
      obtain rfl := maximal last (drops.subset stays) lies
      exact ⟨stays, nonempty⟩
  have blank : after.filter (fun edges => !decide (edges ≠ [])) =
      List.replicate (before.count []) [] := by
    rw [← drops.count_nil, ← List.filter_beq]
    refine List.filter_congr fun edges _ => ?_
    by_cases empty : edges = [] <;> simp [empty]
  calc after.Perm _ := (List.filter_append_perm (· ≠ []) after).symm
    _ = after.filter (· ≠ []) ++ List.replicate (before.count []) [] := by rw [blank]
    _ |>.Perm _ := filled.append_right _

end Drops

namespace HopIndex

variable {index next : HopIndex}

/-- The contents of the stored paths. -/
def contents (index : HopIndex) : List (List Nat) := index.paths.map (·.2.edges)

theorem Exchange.drops {candidate : FoldCandidate} {inner outer : HopPath}
    {others : List (Nat × HopPath)} (exchange : index.Exchange candidate inner outer others next) :
    Drops 1 index.contents next.contents := by
  obtain ⟨folded, before, after⟩ := exchange
  obtain ⟨filled, occurs⟩ := infix_of_fold? folded
  have remains : next.contents = others.map (·.2.edges) ++ [outer.edges] := by
    rw [contents, after, List.map_append]
    rfl
  refine ⟨[inner.edges], rfl, ?_, fun edges member => ?_⟩
  · rw [remains]
    exact (before.map _).trans ((List.perm_append_singleton _ _).symm.cons _)
  · obtain rfl := List.mem_singleton.mp member
    refine ⟨filled, outer.edges, ?_, occurs⟩
    rw [remains]
    exact List.mem_append_right _ (List.mem_singleton_self _)

/-- A merge leaves one path fewer. -/
theorem Exchange.length_paths {candidate : FoldCandidate} {inner outer : HopPath}
    {others : List (Nat × HopPath)} (exchange : index.Exchange candidate inner outer others next) :
    next.paths.length + 1 = index.paths.length := by
  rw [exchange.before.length_eq, exchange.after, List.length_append, List.length_singleton,
    List.length_cons, List.length_cons]

theorem combineWithin_succ {candidate : FoldCandidate} {rest : List FoldCandidate} (steps : Nat)
    (found : nextCurrent index.paths index.candidates = some (candidate, rest)) :
    combineWithin (steps + 1) index =
      let result := combineWithin steps ({ index with candidates := rest }.merge candidate)
      (result.1 + 1, result.2) := by
  rw [combineWithin, found]

theorem combineWithin_succ_of_none (steps : Nat)
    (none : nextCurrent index.paths index.candidates = none) :
    combineWithin (steps + 1) index = (0, { index with candidates := [] }) := by
  rw [combineWithin, none]

/-- As many sequences are dropped as paths are merged. -/
theorem combineWithin_drops (steps : Nat) (sound : index.Sound)
    (queued : index.Queued index.paths) :
    Drops (combineWithin steps index).1 index.contents (combineWithin steps index).2.contents := by
  induction steps generalizing index with
  | zero => exact .refl _
  | succ steps ih =>
    rcases found : nextCurrent index.paths index.candidates with _ | ⟨candidate, rest⟩
    · rw [combineWithin_succ_of_none steps found]
      exact .refl _
    · obtain ⟨inner, outer, others, exchange⟩ := queued.exists_exchange sound found
      have later := ih (sound.combining (.merge found)) (queued.combining sound (.merge found))
      have both := exchange.drops.trans later
      rw [Nat.add_comm] at both
      rw [combineWithin_succ steps found]
      exact both

/-- As many steps as there are paths exhaust the candidates. -/
theorem candidates_combineWithin {steps : Nat} (sound : index.Sound)
    (queued : index.Queued index.paths) (enough : index.paths.length ≤ steps)
    (stored : index.paths ≠ []) : (combineWithin steps index).2.candidates = [] := by
  induction steps generalizing index with
  | zero => exact absurd (List.eq_nil_of_length_eq_zero (Nat.le_zero.mp enough)) stored
  | succ steps ih =>
    rcases found : nextCurrent index.paths index.candidates with _ | ⟨candidate, rest⟩
    · rw [combineWithin_succ_of_none steps found]
    · rw [combineWithin_succ steps found]
      obtain ⟨inner, outer, others, exchange⟩ := queued.exists_exchange sound found
      have fewer := exchange.length_paths
      refine ih (sound.combining (.merge found)) (queued.combining sound (.merge found)) ?_ ?_
      · omega
      · rw [exchange.after]
        exact List.append_ne_nil_of_right_ne_nil _ (List.cons_ne_nil _ _)

theorem combineWithin_of_idle (steps : Nat) (idle : index.candidates = []) :
    combineWithin steps index = (0, index) := by
  cases steps with
  | zero => rfl
  | succ steps =>
    obtain ⟨sequences, paths, locations, candidates, nextId⟩ := index
    cases idle
    rfl

/-- Once the candidates are exhausted, further steps change nothing. -/
theorem combineWithin_add {steps : Nat} (more : Nat)
    (idle : (combineWithin steps index).2.candidates = []) :
    combineWithin (steps + more) index = combineWithin steps index := by
  induction steps generalizing index with
  | zero =>
    rw [Nat.zero_add]
    exact combineWithin_of_idle more idle
  | succ steps ih =>
    rw [Nat.add_right_comm]
    rcases found : nextCurrent index.paths index.candidates with _ | ⟨candidate, rest⟩
    · rw [combineWithin_succ_of_none _ found, combineWithin_succ_of_none _ found]
    · rw [combineWithin_succ steps found] at idle
      rw [combineWithin_succ _ found, combineWithin_succ _ found, ih idle]

theorem totalLength_eq (index : HopIndex) :
    index.totalLength = (index.contents.map List.length).sum := by
  rw [totalLength, contents, List.map_map]
  rfl

theorem candidates_combine (sequences : List (Nat × List Nat)) :
    (ofSequences sequences).combine.2.candidates = [] := by
  by_cases stored : (ofSequences sequences).paths = []
  · have none : (ofSequences sequences).candidates = [] := by
      have all : (ofSequences sequences).candidates = allCandidates (ofSequences sequences).paths :=
        rfl
      rw [all, stored]
      rfl
    rw [combine, combineWithin_of_idle _ none, none]
  · exact candidates_combineWithin (sound_ofSequences sequences) (.ofSequences sequences)
      (Nat.le_refl _) stored

theorem contents_ofSequences (sequences : List (Nat × List Nat)) :
    (ofSequences sequences).contents = (Ascending.ofEntries sequences).map (·.2) := by
  have values := congrArg (List.map (·.2)) (List.zipIdx_map_fst 0 (Ascending.ofEntries sequences))
  rw [List.map_map] at values
  simp only [contents, ofSequences, List.map_map]
  exact values

/-- The stored paths hold those sequences that are not empty and occur in no different one, once
each, and every empty one. No path that is not empty lies in another one. There have been as many
merges as there are fewer paths than sequences, and there is no further merge. -/
structure Exhausted (sequences : List (List Nat)) (merges : Nat) (index : HopIndex) : Prop where
  contents : (index.paths.map (·.2.edges)).Perm
    (maximalSequences sequences ++ List.replicate (sequences.count []) [])
  apart : ∀ a ∈ index.paths, ∀ b ∈ index.paths, a.1 ≠ b.1 → a.2.edges ≠ [] →
    ¬ a.2.edges <:+: b.2.edges
  merges : merges + index.paths.length = sequences.length
  totalLength : index.totalLength = ((maximalSequences sequences).map List.length).sum
  combine : index.combine = (0, index)

/-- A hop index without candidates is exhausted if merges have led to it. -/
theorem exhausted_of_idle {given : List (List Nat)} {merges : Nat} (numbered : index.Numbered)
    (queued : index.Queued index.paths) (idle : index.candidates = [])
    (drops : Drops merges given index.contents) : Exhausted given merges index := by
  have apart : ∀ a ∈ index.paths, ∀ b ∈ index.paths, a.1 ≠ b.1 → a.2.edges ≠ [] →
      ¬ a.2.edges <:+: b.2.edges := fun a left b right distinct =>
    queued.apart_of_idle idle left right distinct
  have unrelated : index.contents.Pairwise Unrelated := by
    have ids := List.pairwise_map.mp numbered.ids
    refine List.pairwise_map.mpr (ids.imp_of_mem fun left right lower => ?_)
    exact ⟨apart _ left _ right (Nat.ne_of_lt lower), apart _ right _ left (Nat.ne_of_gt lower)⟩
  have perm := drops.perm_maximalSequences unrelated
  refine ⟨perm, apart, ?_, ?_, combineWithin_of_idle _ idle⟩
  · rw [← drops.length, contents, List.length_map]
  · rw [totalLength_eq, (perm.map List.length).sum_eq, List.map_append, List.sum_append,
      List.map_replicate, List.sum_replicate]
    exact Nat.add_zero _

/-- Combining ends because no candidate is left, and not because its steps run out. It leaves the
maximal sequences. -/
theorem combine_maximal (sequences : List (Nat × List Nat)) :
    (∀ steps, (Ascending.ofEntries sequences).length ≤ steps →
        combineWithin steps (ofSequences sequences) = (ofSequences sequences).combine) ∧
      (ofSequences sequences).combine.2.candidates = [] ∧
      Exhausted ((Ascending.ofEntries sequences).map (·.2)) (ofSequences sequences).combine.1
        (ofSequences sequences).combine.2 := by
  have start := contents_ofSequences sequences
  have idle := candidates_combine sequences
  have sound := sound_ofSequences sequences
  have queued := Queued.ofSequences sequences
  have run := combineWithin_steps (ofSequences sequences).paths.length (ofSequences sequences)
  refine ⟨fun steps enough => ?_, idle, ?_⟩
  · have paths := congrArg List.length start
    rw [contents, List.length_map, List.length_map] at paths
    obtain ⟨more, rfl⟩ := Nat.exists_eq_add_of_le enough
    rw [← paths]
    exact combineWithin_add more idle
  · refine exhausted_of_idle (sound.steps run).toNumbered (queued.steps sound run) idle ?_
    rw [← start]
    exact combineWithin_drops _ sound queued

end HopIndex

end RoadHierarchy
