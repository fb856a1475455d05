import Mathlib.Logic.Relation
import RoadHierarchy.HopPath.Combine
import RoadHierarchy.Proofs.HopPath.Index

/-! # Combining keeps hop indices sound

A merge replaces two paths by a new one, which holds the keys of both. The keys of the contained path
move by the offset at which it lies in the container, and all others stay where they were.
-/

namespace RoadHierarchy.HopIndex

/-- One step of combining merges the most urgent current candidate, or finds that there is none. -/
inductive Combining : HopIndex → HopIndex → Prop
  | merge {index : HopIndex} {candidate : FoldCandidate} {rest : List FoldCandidate} :
      nextCurrent index.paths index.candidates = some (candidate, rest) →
      Combining index ({ index with candidates := rest }.merge candidate)
  | finish {index : HopIndex} : nextCurrent index.paths index.candidates = none →
      Combining index { index with candidates := [] }

variable {index next : HopIndex} {candidate : FoldCandidate} {inner outer : HopPath}

theorem combineWithin_steps (steps : Nat) (index : HopIndex) :
    Relation.ReflTransGen Combining index (combineWithin steps index).2 := by
  induction steps generalizing index with
  | zero => exact .refl
  | succ steps ih =>
    unfold combineWithin
    split
    · next none => exact .single (.finish none)
    · next current => exact .head (.merge current) (ih _)

theorem sequences_merge (index : HopIndex) (candidate : FoldCandidate) :
    (index.merge candidate).sequences = index.sequences := by
  unfold merge
  split <;> rfl

/-- The sequences stay as they were given. -/
theorem sequences_of_steps (steps : Relation.ReflTransGen Combining index next) :
    next.sequences = index.sequences := by
  induction steps with
  | refl => rfl
  | tail _ step ih =>
    rw [← ih]
    cases step with
    | merge found => exact sequences_merge _ _
    | finish none => rfl

/-- The first current candidate comes after candidates that are not current. -/
theorem nextCurrent_eq_some {paths : List (Nat × HopPath)} {candidates rest : List FoldCandidate}
    (found : nextCurrent paths candidates = some (candidate, rest)) :
    isCurrent paths candidate = true ∧ ∃ stale, candidates = stale ++ candidate :: rest ∧
      ∀ earlier ∈ stale, isCurrent paths earlier = false := by
  induction candidates with
  | nil => cases found
  | cons head tail ih =>
    unfold nextCurrent at found
    split at found
    · next current =>
      cases found
      exact ⟨current, [], rfl, fun earlier member => by cases member⟩
    · next gone =>
      obtain ⟨current, stale, rfl, before⟩ := ih found
      refine ⟨current, head :: stale, rfl, fun earlier member => ?_⟩
      rcases List.mem_cons.mp member with rfl | member
      · exact Bool.not_eq_true _ ▸ gone
      · exact before earlier member

theorem nextCurrent_eq_none {paths : List (Nat × HopPath)} {candidates : List FoldCandidate} :
    nextCurrent paths candidates = none ↔
      ∀ candidate ∈ candidates, isCurrent paths candidate = false := by
  induction candidates with
  | nil => simp [nextCurrent]
  | cons head tail ih =>
    unfold nextCurrent
    split
    · next current => simp [current]
    · next gone => simp [gone, ih]

theorem isCurrent_iff {paths : List (Nat × HopPath)} : isCurrent paths candidate = true ↔
    ∃ inner outer, paths.lookup candidate.contained = some inner ∧
      paths.lookup candidate.container = some outer := by
  simp only [isCurrent, Bool.and_eq_true, Option.isSome_iff_exists, exists_and_left,
    exists_and_right]

/-- The candidate that is merged next names two stored paths. It and those after it have been
queued. -/
theorem exists_stored {rest : List FoldCandidate}
    (found : nextCurrent index.paths index.candidates = some (candidate, rest)) :
    ∃ inner outer, index.path? candidate.contained = some inner ∧
      index.path? candidate.container = some outer ∧
        ∀ later ∈ candidate :: rest, later ∈ index.candidates := by
  obtain ⟨current, stale, queued, -⟩ := nextCurrent_eq_some found
  obtain ⟨inner, outer, inside, around⟩ := isCurrent_iff.mp current
  refine ⟨inner, outer, inside, around, fun later member => ?_⟩
  rw [queued]
  exact List.mem_append_right stale member

theorem mem_keys_absorb {key : Nat} :
    key ∈ (outer.absorb inner).keys ↔ key ∈ inner.keys ∨ key ∈ outer.keys := by
  rw [HopPath.absorb, (Agenda.perm_ofList _ _).mem_iff, List.mem_append]

theorem relocate_path_of_mem {id key : Nat} (location : PathLocation)
    (moved : key ∈ inner.keys ∨ key ∈ outer.keys) :
    (relocate candidate inner outer id key location).path = id := by
  unfold relocate
  by_cases contained : key ∈ inner.keys
  · rw [if_pos contained]
  · rw [if_neg contained, if_pos (moved.resolve_left contained)]

/-- The stored paths that a merge does not touch. -/
def bystanders (index : HopIndex) (candidate : FoldCandidate) : List (Nat × HopPath) :=
  index.paths.filter fun other =>
    other.1 != candidate.contained && other.1 != candidate.container

section Merge

variable (inside : index.path? candidate.contained = some inner)
  (around : index.path? candidate.container = some outer)
include inside around

/-- The other paths stay, and the merged one comes last. -/
theorem paths_merge : (index.merge candidate).paths =
    index.bystanders candidate ++ [(index.nextId, outer.absorb inner)] := by
  simp only [merge, inside, around]
  rfl

theorem location?_merge (key : Nat) : (index.merge candidate).location? key =
    (index.location? key).map (relocate candidate inner outer index.nextId key) := by
  simp only [merge, inside, around]
  exact lookup_map (relocate candidate inner outer index.nextId) key index.locations

theorem path?_merge (numbered : index.Numbered) (id : Nat) :
    (index.merge candidate).path? id =
      if id = index.nextId then some (outer.absorb inner)
      else if id = candidate.contained ∨ id = candidate.container then none
      else index.path? id := by
  have split := lookup_filter (fun id => id != candidate.contained && id != candidate.container) id
    index.paths
  rw [path?, paths_merge inside around, bystanders, List.lookup_append, split, List.lookup_cons,
    List.lookup_nil]
  by_cases new : id = index.nextId
  · have none : index.paths.lookup id = none := by
      refine List.lookup_eq_none_iff.mpr fun entry member => bne_iff_ne.mpr ?_
      rw [new]
      exact (Nat.ne_of_lt (numbered.fresh entry.1 (List.mem_map_of_mem member))).symm
    rw [none, ite_self, if_pos new, new, beq_self_eq_true]
    rfl
  · have apart : (id == index.nextId) = false := beq_eq_false_iff_ne.mpr new
    rw [apart, if_neg new, Option.or_none]
    by_cases gone : id = candidate.contained ∨ id = candidate.container
    · have dropped : ¬ (id != candidate.contained && id != candidate.container) = true := by
        rcases gone with rfl | rfl <;> simp
      rw [if_neg dropped, if_pos gone]
    · have kept : (id != candidate.contained && id != candidate.container) = true := by
        simpa using gone
      rw [if_pos kept, if_neg gone]
      rfl

theorem nextId_merge : (index.merge candidate).nextId = index.nextId + 1 := by
  simp only [merge, inside, around]

theorem keys_merge :
    (index.merge candidate).locations.map (·.1) = index.locations.map (·.1) := by
  simp only [merge, inside, around, List.map_map]
  rfl

theorem pathIds_merge : (index.merge candidate).pathIds = index.pathIds.filter (fun id =>
    id != candidate.contained && id != candidate.container) ++ [index.nextId] := by
  rw [pathIds, paths_merge inside around, List.map_append, pathIds, List.filter_map]
  rfl

/-- The new candidates are the folds between the merged path and the others. -/
theorem mem_candidates_merge {later : FoldCandidate} :
    later ∈ (index.merge candidate).candidates ↔ later ∈ index.candidates ∨
      ∃ other ∈ index.bystanders candidate,
        fold? (index.nextId, outer.absorb inner) other = some later ∨
          fold? other (index.nextId, outer.absorb inner) = some later := by
  simp only [merge, inside, around, (Agenda.perm_merge _ _ _).mem_iff, List.mem_append,
    mem_candidatesOf]
  exact or_comm

theorem Numbered.merge (numbered : index.Numbered) : (index.merge candidate).Numbered := by
  have ids := pathIds_merge inside around
  constructor
  · rw [ids]
    refine List.pairwise_append.mpr ⟨numbered.ids.filter _, List.pairwise_singleton _ _, ?_⟩
    intro id member new here
    rw [List.mem_singleton.mp here]
    exact numbered.fresh id (List.mem_filter.mp member).1
  · intro id member
    rw [ids, List.mem_append, List.mem_singleton] at member
    rw [nextId_merge inside around]
    rcases member with old | rfl
    · exact Nat.lt_succ_of_lt (numbered.fresh id (List.mem_filter.mp old).1)
    · exact Nat.lt_succ_self _

theorem path?_of_merge (numbered : index.Numbered) {id : Nat} {path : HopPath}
    (known : id < index.nextId) (found : (index.merge candidate).path? id = some path) :
    index.path? id = some path := by
  rw [path?_merge inside around numbered, if_neg (Nat.ne_of_lt known)] at found
  split at found
  · cases found
  · exact found

/-- A candidate that held before still does: its paths are as they were, or one of them is gone. -/
theorem Holds.merge (numbered : index.Numbered) {later : FoldCandidate}
    (holds : index.Holds later) :
    (index.merge candidate).Holds later := by
  have old := @path?_of_merge _ _ _ _ inside around numbered
  obtain ⟨contained, container, occurs⟩ := holds
  have bound := nextId_merge inside around
  refine ⟨?_, ?_, fun a b first second => ?_⟩
  · omega
  · omega
  · exact occurs a b (old contained first) (old container second)

end Merge

namespace Sound

variable (sound : index.Sound)
include sound

theorem located_merge (inside : index.path? candidate.contained = some inner)
    (around : index.path? candidate.container = some outer)
    (occurs : Occurs inner.edges candidate.offset outer.edges) {key : Nat} {location : PathLocation}
    (found : (index.merge candidate).location? key = some location) : ∃ edges path,
      index.sequence? key = some edges ∧ (index.merge candidate).path? location.path = some path ∧
        key ∈ path.keys ∧ Occurs edges location.offset path.edges := by
  rw [location?_merge inside around] at found
  obtain ⟨before, was, rfl⟩ := Option.map_eq_some_iff.mp found
  obtain ⟨edges, path, given, stored, member, lies⟩ := sound.located key before was
  have first := sound.mem_keys inside was
  have second := sound.mem_keys around was
  unfold relocate
  by_cases contained : key ∈ inner.keys
  · rw [first.mp contained, inside] at stored
    cases stored
    refine ⟨edges, outer.absorb inner, given, ?_, mem_keys_absorb.mpr (.inl contained), ?_⟩
    · rw [if_pos contained, path?_merge inside around sound.toNumbered, if_pos rfl]
    · rw [if_pos contained]
      exact lies.trans occurs
  · rw [if_neg contained]
    by_cases container : key ∈ outer.keys
    · rw [second.mp container, around] at stored
      cases stored
      refine ⟨edges, outer.absorb inner, given, ?_, mem_keys_absorb.mpr (.inr container), ?_⟩
      · rw [if_pos container, path?_merge inside around sound.toNumbered, if_pos rfl]
      · rw [if_pos container]
        exact lies
    · rw [if_neg container]
      have old := sound.fresh before.path (List.mem_map.mpr ⟨_, mem_of_lookup stored, rfl⟩)
      refine ⟨edges, path, given, ?_, member, lies⟩
      rw [path?_merge inside around sound.toNumbered, if_neg (Nat.ne_of_lt old), if_neg, stored]
      rintro (there | there)
      · exact contained (first.mpr there)
      · exact container (second.mpr there)

theorem listed_merge (inside : index.path? candidate.contained = some inner)
    (around : index.path? candidate.container = some outer) {id key : Nat} {path : HopPath}
    (stored : (index.merge candidate).path? id = some path) (member : key ∈ path.keys) :
    ∃ location, (index.merge candidate).location? key = some location ∧ location.path = id := by
  rw [path?_merge inside around sound.toNumbered] at stored
  rw [location?_merge inside around]
  split at stored
  · next new =>
    cases stored
    have moved := mem_keys_absorb.mp member
    have known : ∃ before, index.location? key = some before := by
      rcases moved with contained | container
      · exact (sound.listed _ inner inside key contained).imp fun _ => And.left
      · exact (sound.listed _ outer around key container).imp fun _ => And.left
    obtain ⟨before, was⟩ := known
    exact ⟨_, Option.map_eq_some_iff.mpr ⟨before, was, rfl⟩,
      (relocate_path_of_mem before moved).trans new.symm⟩
  · split at stored
    · cases stored
    · next stays =>
      obtain ⟨before, was, there⟩ := sound.listed id path stored key member
      refine ⟨_, Option.map_eq_some_iff.mpr ⟨before, was, rfl⟩, ?_⟩
      have first := sound.mem_keys inside was
      have second := sound.mem_keys around was
      rw [there] at first second
      rw [relocate, if_neg (fun gone => stays (.inl (first.mp gone))),
        if_neg (fun gone => stays (.inr (second.mp gone))), there]

/-- Merging the paths of a candidate that holds keeps a hop index sound. -/
theorem merge (inside : index.path? candidate.contained = some inner)
    (around : index.path? candidate.container = some outer) (holds : index.Holds candidate) :
    (index.merge candidate).Sound where
  toNumbered := sound.toNumbered.merge inside around
  keys := by rw [keys_merge inside around, sequences_merge, sound.keys]
  ascending := by
    rw [sequences_merge]
    exact sound.ascending
  located key location found := by
    rw [sequence?, sequences_merge]
    exact sound.located_merge inside around (holds.occurs inner outer inside around) found
  listed id path stored key member := sound.listed_merge inside around stored member
  candidates later member := by
    have numbered := sound.toNumbered.merge inside around
    have stored := paths_merge inside around
    have merged : (index.nextId, outer.absorb inner) ∈ (index.merge candidate).paths := by
      rw [stored]
      exact List.mem_append_right _ (List.mem_singleton_self _)
    rcases (mem_candidates_merge inside around).mp member with old | ⟨other, stays, folded⟩
    · exact (sound.candidates later old).merge inside around sound.toNumbered
    · have there : other ∈ (index.merge candidate).paths := by
        rw [stored]
        exact List.mem_append_left _ stays
      rcases folded with folded | folded
      · exact numbered.holds_of_fold merged there folded
      · exact numbered.holds_of_fold there merged folded

theorem combining (step : Combining index next) : next.Sound := by
  cases step with
  | @merge candidate rest found =>
    obtain ⟨inner, outer, inside, around, within⟩ := exists_stored found
    have shorter := sound.dropCandidates fun later member =>
      within later (List.mem_cons_of_mem _ member)
    obtain ⟨older, elder, occurs⟩ := sound.candidates _ (within _ (List.mem_cons_self ..))
    exact shorter.merge inside around ⟨older, elder, occurs⟩
  | finish none =>
    exact sound.dropCandidates fun later member => by cases member

/-- Every merge of combining keeps a hop index sound. -/
theorem steps (steps : Relation.ReflTransGen Combining index next) : next.Sound := by
  induction steps with
  | refl => exact sound
  | tail _ step ih => exact ih.combining step

end Sound

theorem sequences_combine (sequences : List (Nat × List Nat)) :
    (ofSequences sequences).combine.2.sequences = Ascending.ofEntries sequences :=
  sequences_of_steps (combineWithin_steps _ _)

/-- Combining keeps every sequence where the location of its key says. -/
theorem sound_combine (sequences : List (Nat × List Nat)) :
    (ofSequences sequences).combine.2.Sound :=
  (sound_ofSequences sequences).steps (combineWithin_steps _ _)

end RoadHierarchy.HopIndex
