import Mathlib.Order.Basic
import Mathlib.Tactic.Set
import RoadHierarchy.Proofs.HopPath.Candidates
import RoadHierarchy.Proofs.Queue.Agenda

/-! # Keys stay addressable

The stored paths share the keys out among themselves: every key is listed in one path, the one that
its location names, and there the sequence of the key starts where the location says. This holds
from the start and after every merge.
-/

namespace RoadHierarchy

/-- The agenda of distinct numbers, the lowest first, ascends strictly. -/
theorem Agenda.pairwise_ofList_of_nodup {ids : List Nat} (single : ids.Nodup) :
    (ofList (fun a b => a ≤ b) ids).Pairwise (· < ·) := by
  have decides : Decides (fun a b : Nat => decide (a ≤ b)) (· ≤ ·) := by
    refine ⟨fun a b early => of_decide_eq_true early, fun a b late => ?_, fun a b c => Nat.le_trans⟩
    exact Nat.le_of_not_le (of_decide_eq_false late)
  have distinct := (perm_ofList (fun a b => decide (a ≤ b)) ids).nodup_iff.mpr single
  exact (decides.pairwise_ofList ids).imp₂ (fun _ _ => lt_of_le_of_ne) distinct

namespace HopIndex

variable {index next : HopIndex}

/-- Every key is listed in one stored path, and every stored path lists a key. The lists ascend. -/
structure Partitioned (index : HopIndex) : Prop where
  listed : (index.paths.flatMap (·.2.keys)).Perm (index.sequences.map (·.1))
  ascending : ∀ entry ∈ index.paths, entry.2.keys.Pairwise (· < ·)
  filled : ∀ entry ∈ index.paths, entry.2.keys ≠ []

theorem partitioned_ofSequences (sequences : List (Nat × List Nat)) :
    (ofSequences sequences).Partitioned := by
  have single : ∀ entry ∈ (ofSequences sequences).paths, ∃ key, entry.2.keys = [key] := by
    intro entry member
    obtain ⟨numbered, -, rfl⟩ := List.mem_map.mp member
    exact ⟨numbered.1.1, rfl⟩
  refine ⟨List.Perm.of_eq ?_, fun entry member => ?_, fun entry member => ?_⟩
  · have keys := congrArg (List.map (·.1)) (List.zipIdx_map_fst 0 (Ascending.ofEntries sequences))
    rw [List.map_map] at keys
    simp only [ofSequences, List.flatMap_map]
    rw [← List.map_eq_flatMap]
    exact keys
  · obtain ⟨key, only⟩ := single entry member
    rw [only]
    exact List.pairwise_singleton _ _
  · obtain ⟨key, only⟩ := single entry member
    rw [only]
    exact List.cons_ne_nil _ _

namespace Partitioned

/-- The new path takes the keys of both paths that it replaces. -/
theorem exchange (sound : index.Sound) (parts : index.Partitioned) {candidate : FoldCandidate}
    {inner outer : HopPath} {others : List (Nat × HopPath)}
    (exchange : index.Exchange candidate inner outer others next)
    (same : next.sequences = index.sequences) : next.Partitioned := by
  obtain ⟨-, before, after⟩ := exchange
  have shared : (others.flatMap (·.2.keys) ++ (inner.keys ++ outer.keys)).Perm
      (index.sequences.map (·.1)) := by
    have moved := before.flatMap_right (·.2.keys)
    rw [List.flatMap_cons, List.flatMap_cons, ← List.append_assoc] at moved
    exact List.perm_append_comm.trans (moved.symm.trans parts.listed)
  have single : (inner.keys ++ outer.keys).Nodup := by
    have distinct := shared.nodup_iff.mpr (sound.ascending.imp Nat.ne_of_lt)
    exact (List.nodup_append.mp distinct).2.1
  have old : ∀ entry ∈ others, entry ∈ index.paths := fun entry member =>
    before.mem_iff.mpr (List.mem_cons_of_mem _ (List.mem_cons_of_mem _ member))
  have first : (candidate.contained, inner) ∈ index.paths :=
    before.mem_iff.mpr (List.mem_cons_self ..)
  constructor
  · rw [after, same, List.flatMap_append, List.flatMap_singleton]
    exact ((Agenda.perm_ofList _ _).append_left _).trans shared
  · rw [after]
    intro entry member
    rcases List.mem_append.mp member with member | member
    · exact parts.ascending entry (old entry member)
    · rw [List.mem_singleton.mp member]
      exact Agenda.pairwise_ofList_of_nodup single
  · rw [after]
    intro entry member
    rcases List.mem_append.mp member with member | member
    · exact parts.filled entry (old entry member)
    · rw [List.mem_singleton.mp member]
      obtain ⟨key, listed⟩ := List.exists_mem_of_ne_nil _ (parts.filled _ first)
      exact List.ne_nil_of_mem (mem_keys_absorb.mpr (.inl listed))

theorem combining (sound : index.Sound) (queued : index.Queued index.paths)
    (parts : index.Partitioned) (step : Combining index next) : next.Partitioned := by
  cases step with
  | merge found =>
    obtain ⟨inner, outer, others, exchange⟩ := queued.exists_exchange sound found
    exact parts.exchange sound exchange (sequences_merge _ _)
  | finish none => exact ⟨parts.listed, parts.ascending, parts.filled⟩

/-- Merges keep the keys shared out. -/
theorem steps (sound : index.Sound) (queued : index.Queued index.paths) (parts : index.Partitioned)
    (steps : Relation.ReflTransGen Combining index next) : next.Partitioned := by
  induction steps with
  | refl => exact parts
  | tail before step ih => exact ih.combining (sound.steps before) (queued.steps sound before) step

end Partitioned

/-- Every sequence is known as it was given, and it is the stretch that the location of its key cuts
out of a stored path. No other path lists the key. Every stored path lists some keys, strictly
ascending, and together the paths list every key once. -/
structure Addressable (sequences : List (Nat × List Nat)) (index : HopIndex) : Prop where
  given : ∀ key, index.sequence? key = sequences.reverse.lookup key
  located : ∀ key edges, sequences.reverse.lookup key = some edges → ∃ location path,
    index.location? key = some location ∧ index.path? location.path = some path ∧
      location.offset + edges.length ≤ path.edges.length ∧
      (path.edges.drop location.offset).take edges.length = edges ∧
      ∀ id other, index.path? id = some other → (key ∈ other.keys ↔ location.path = id)
  ascending : ∀ id path, index.path? id = some path →
    path.keys ≠ [] ∧ path.keys.Pairwise (· < ·)
  listed : (index.paths.flatMap (·.2.keys)).Perm (Ascending.ofList (sequences.map (·.1)))

/-- Every sequence can be addressed through its key, from the start and after any number of
merges. -/
theorem combineWithin_addressable (sequences : List (Nat × List Nat)) (steps : Nat) :
    Addressable sequences (combineWithin steps (ofSequences sequences)).2 := by
  set index := (combineWithin steps (ofSequences sequences)).2
  have run : Relation.ReflTransGen Combining (ofSequences sequences) index :=
    combineWithin_steps steps _
  have start := sound_ofSequences sequences
  have queued := Queued.ofSequences sequences
  have sound := start.steps run
  have parts := (partitioned_ofSequences sequences).steps start queued run
  have same : index.sequences = Ascending.ofEntries sequences := sequences_of_steps run
  have given : ∀ key, index.sequence? key = sequences.reverse.lookup key := fun key => by
    rw [sequence?, same, Ascending.lookup_ofEntries]
  refine ⟨given, fun key edges known => ?_, fun id path stored => ?_, ?_⟩
  · rw [← given] at known
    obtain ⟨location, path, found, stored, occurs⟩ := sound.exists_location (mem_of_lookup known)
    exact ⟨location, path, found, stored, occurs.add_length_le, occurs.take_drop,
      fun id other there => sound.mem_keys there found⟩
  · have member := mem_of_lookup stored
    exact ⟨parts.filled _ member, parts.ascending _ member⟩
  · refine parts.listed.trans ?_
    rw [same]
    refine (List.perm_ext_iff_of_nodup ?_ ?_).mpr fun key => ?_
    · exact (Ascending.pairwise_ofEntries sequences).imp Nat.ne_of_lt
    · exact (Ascending.pairwise_ofList _).imp Nat.ne_of_lt
    · rw [Ascending.mem_keys_ofEntries, Ascending.mem_ofList]

end HopIndex

end RoadHierarchy
