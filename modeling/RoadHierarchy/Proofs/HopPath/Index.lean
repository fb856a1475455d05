import Mathlib.Order.Bounds.Basic
import RoadHierarchy.HopPath.Basic
import RoadHierarchy.Proofs.Lookup

/-! # Hop indices keep their sequences

However paths are merged, the sequence of every key lies where its location says. Which paths contain
which is known from the candidates: a candidate that speaks of two stored paths says where the one
lies in the other.
-/

namespace RoadHierarchy

/-- The sequence lies in another one from a position on. -/
def Occurs (needle : List Nat) (offset : Nat) (sequence : List Nat) : Prop :=
  ∃ before after, before.length = offset ∧ before ++ needle ++ after = sequence

namespace Occurs

variable {needle middle sequence rest : List Nat} {a b offset head : Nat}

theorem refl (sequence : List Nat) : Occurs sequence 0 sequence :=
  ⟨[], [], rfl, List.append_nil sequence⟩

theorem trans (inner : Occurs needle a middle) (outer : Occurs middle b sequence) :
    Occurs needle (a + b) sequence := by
  obtain ⟨before, after, rfl, rfl⟩ := inner
  obtain ⟨front, back, rfl, rfl⟩ := outer
  refine ⟨front ++ before, after ++ back, ?_, ?_⟩
  · rw [List.length_append, Nat.add_comm]
  · simp only [List.append_assoc]

theorem add_length_le (occurs : Occurs needle offset sequence) :
    offset + needle.length ≤ sequence.length := by
  obtain ⟨before, after, rfl, rfl⟩ := occurs
  rw [List.length_append, List.length_append]
  exact Nat.le_add_right _ _

theorem take_drop (occurs : Occurs needle offset sequence) :
    (sequence.drop offset).take needle.length = needle := by
  obtain ⟨before, after, rfl, rfl⟩ := occurs
  rw [List.append_assoc, List.drop_left, List.take_left]

theorem zero_iff : Occurs needle 0 sequence ↔ needle <+: sequence := by
  constructor
  · rintro ⟨before, after, none, rfl⟩
    obtain rfl := List.eq_nil_of_length_eq_zero none
    exact List.prefix_append needle after
  · rintro ⟨after, rfl⟩
    exact ⟨[], after, rfl, rfl⟩

theorem succ_iff : Occurs needle (offset + 1) (head :: rest) ↔ Occurs needle offset rest := by
  constructor
  · rintro ⟨_ | ⟨first, before⟩, after, length, whole⟩
    · cases length
    · exact ⟨before, after, Nat.succ.inj length, (List.cons.inj whole).2⟩
  · rintro ⟨before, after, rfl, rfl⟩
    exact ⟨head :: before, after, rfl, rfl⟩

end Occurs

/-- Found is the first position at which the sequence occurs, unless it is empty. -/
theorem occurrence?_eq_some_iff {needle sequence : List Nat} {offset : Nat} :
    occurrence? needle sequence = some offset ↔
      needle ≠ [] ∧ IsLeast {start | Occurs needle start sequence} offset := by
  induction sequence generalizing offset with
  | nil =>
    simp only [occurrence?, reduceCtorEq, false_iff]
    rintro ⟨filled, ⟨before, after, -, whole⟩, -⟩
    simp_all
  | cons head rest ih =>
    by_cases empty : needle = []
    · simp [occurrence?, empty]
    rw [occurrence?, if_neg (by simpa using empty)]
    split
    · next starts =>
      have first : Occurs needle 0 (head :: rest) :=
        Occurs.zero_iff.mpr (List.isPrefixOf_iff_prefix.mp starts)
      constructor
      · intro zero
        cases zero
        exact ⟨empty, first, fun start _ => Nat.zero_le start⟩
      · rintro ⟨-, -, least⟩
        exact congrArg some (Nat.le_zero.mp (least first)).symm
    · next apart =>
      have later : ¬ Occurs needle 0 (head :: rest) := fun first =>
        apart (List.isPrefixOf_iff_prefix.mpr (Occurs.zero_iff.mp first))
      rw [Option.map_eq_some_iff]
      constructor
      · rintro ⟨position, found, rfl⟩
        obtain ⟨-, occurs, least⟩ := ih.mp found
        refine ⟨empty, Occurs.succ_iff.mpr occurs, ?_⟩
        rintro (_ | start) member
        · exact (later member).elim
        · exact Nat.succ_le_succ (least (Occurs.succ_iff.mp member))
      · rintro ⟨-, occurs, least⟩
        cases offset with
        | zero => exact (later occurs).elim
        | succ position =>
          refine ⟨position, ih.mpr ⟨empty, Occurs.succ_iff.mp occurs, fun start member => ?_⟩, rfl⟩
          exact Nat.le_of_succ_le_succ (least (Occurs.succ_iff.mpr member))

namespace HopIndex

/-- The paths of a candidate have been stored, and as long as both of them still are, the first lies
in the second where the candidate says. -/
structure Holds (index : HopIndex) (candidate : FoldCandidate) : Prop where
  contained_lt : candidate.contained < index.nextId
  container_lt : candidate.container < index.nextId
  occurs : ∀ inner outer, index.path? candidate.contained = some inner →
    index.path? candidate.container = some outer → Occurs inner.edges candidate.offset outer.edges

/-- The ids of the paths ascend, and the next one is new. -/
structure Numbered (index : HopIndex) : Prop where
  ids : index.pathIds.Pairwise (· < ·)
  fresh : ∀ id ∈ index.pathIds, id < index.nextId

/-- The sequence of every key lies where its location says, in a path that lists the key. -/
structure Sound (index : HopIndex) : Prop extends index.Numbered where
  keys : index.locations.map (·.1) = index.sequences.map (·.1)
  ascending : (index.sequences.map (·.1)).Pairwise (· < ·)
  located : ∀ key location, index.location? key = some location → ∃ edges path,
    index.sequence? key = some edges ∧ index.path? location.path = some path ∧ key ∈ path.keys ∧
      Occurs edges location.offset path.edges
  listed : ∀ id path, index.path? id = some path → ∀ key ∈ path.keys,
    ∃ location, index.location? key = some location ∧ location.path = id
  candidates : ∀ candidate ∈ index.candidates, index.Holds candidate

variable {index : HopIndex} {candidate : FoldCandidate}

theorem fold?_eq_some {a b : Nat × HopPath} (found : fold? a b = some candidate) :
    candidate.contained = a.1 ∧ candidate.container = b.1 ∧
      Occurs a.2.edges candidate.offset b.2.edges := by
  obtain ⟨offset, occurs, rfl⟩ := Option.map_eq_some_iff.mp found
  exact ⟨rfl, rfl, (occurrence?_eq_some_iff.mp occurs).2.1⟩

theorem mem_candidatesOf {path : Nat × HopPath} {others : List (Nat × HopPath)} :
    candidate ∈ candidatesOf path others ↔
      ∃ other ∈ others, fold? path other = some candidate ∨ fold? other path = some candidate := by
  simp only [candidatesOf, (Agenda.perm_ofList _ _).mem_iff, List.mem_flatMap, candidatesBetween,
    List.mem_append, Option.mem_toList]

/-- Every fold of a path into another one is a candidate, and nothing else is. -/
theorem mem_allCandidates {paths : List (Nat × HopPath)} (single : (paths.map (·.1)).Nodup) :
    candidate ∈ allCandidates paths ↔
      ∃ a ∈ paths, ∃ b ∈ paths, a.1 ≠ b.1 ∧ fold? a b = some candidate := by
  induction paths with
  | nil => simp [allCandidates]
  | cons path rest ih =>
    obtain ⟨fresh, later⟩ := List.nodup_cons.mp single
    have apart : ∀ other ∈ rest, path.1 ≠ other.1 := fun other member same =>
      fresh (List.mem_map.mpr ⟨other, member, same.symm⟩)
    rw [allCandidates, (Agenda.perm_merge _ _ _).mem_iff, List.mem_append, mem_candidatesOf,
      ih later]
    constructor
    · rintro (⟨other, inside, folded | folded⟩ | ⟨a, left, b, right, distinct, folded⟩)
      · exact ⟨path, List.mem_cons_self .., other, List.mem_cons_of_mem _ inside,
          apart other inside, folded⟩
      · exact ⟨other, List.mem_cons_of_mem _ inside, path, List.mem_cons_self ..,
          (apart other inside).symm, folded⟩
      · exact ⟨a, List.mem_cons_of_mem _ left, b, List.mem_cons_of_mem _ right, distinct, folded⟩
    · rintro ⟨a, left, b, right, distinct, folded⟩
      rcases List.mem_cons.mp left with rfl | former
      · exact .inl ⟨b, List.mem_of_ne_of_mem (fun same => distinct (same ▸ rfl)) right, .inl folded⟩
      · rcases List.mem_cons.mp right with rfl | latter
        · exact .inl ⟨a, former, .inr folded⟩
        · exact .inr ⟨a, former, b, latter, distinct, folded⟩

theorem Numbered.path?_eq_some (numbered : index.Numbered) {id : Nat} {path : HopPath} :
    index.path? id = some path ↔ (id, path) ∈ index.paths :=
  ⟨mem_of_lookup, lookup_of_mem (numbered.ids.imp Nat.ne_of_lt)⟩

/-- A fold of one stored path into another holds. -/
theorem Numbered.holds_of_fold (numbered : index.Numbered) {a b : Nat × HopPath}
    (left : a ∈ index.paths) (right : b ∈ index.paths) (folded : fold? a b = some candidate) :
    index.Holds candidate := by
  obtain ⟨contained, container, occurs⟩ := fold?_eq_some folded
  constructor
  · rw [contained]
    exact numbered.fresh a.1 (List.mem_map_of_mem left)
  · rw [container]
    exact numbered.fresh b.1 (List.mem_map_of_mem right)
  · intro inner outer inside around
    rw [contained, numbered.path?_eq_some.mpr left] at inside
    rw [container, numbered.path?_eq_some.mpr right] at around
    cases inside
    cases around
    exact occurs

namespace Sound

variable (sound : index.Sound)
include sound

/-- A path lists the keys that are located in it. -/
theorem mem_keys {id key : Nat} {path : HopPath} {location : PathLocation}
    (stored : index.path? id = some path) (found : index.location? key = some location) :
    key ∈ path.keys ↔ location.path = id := by
  constructor
  · intro member
    obtain ⟨other, same, there⟩ := sound.listed id path stored key member
    rw [found] at same
    cases same
    exact there
  · rintro rfl
    obtain ⟨_, other, -, same, member, -⟩ := sound.located key location found
    rw [stored] at same
    cases same
    exact member

/-- Every sequence is found through its key. -/
theorem exists_location {key : Nat} {edges : List Nat} (given : (key, edges) ∈ index.sequences) :
    ∃ location path, index.location? key = some location ∧
      index.path? location.path = some path ∧ Occurs edges location.offset path.edges := by
  have listed : key ∈ index.locations.map (·.1) := by
    rw [sound.keys]
    exact List.mem_map_of_mem given
  obtain ⟨location, found⟩ := exists_lookup listed
  obtain ⟨same, path, there, stored, -, occurs⟩ := sound.located key location found
  have single := lookup_of_mem (sound.ascending.imp Nat.ne_of_lt) given
  rw [sequence?, single] at there
  cases there
  exact ⟨location, path, found, stored, occurs⟩

theorem dropCandidates {rest : List FoldCandidate}
    (within : ∀ later ∈ rest, later ∈ index.candidates) :
    { index with candidates := rest }.Sound := by
  obtain ⟨⟨ids, fresh⟩, keys, ascending, located, listed, candidates⟩ := sound
  refine ⟨⟨ids, fresh⟩, keys, ascending, located, listed, fun later member => ?_⟩
  obtain ⟨contained, container, occurs⟩ := candidates later (within later member)
  exact ⟨contained, container, occurs⟩

end Sound

section OfSequences

variable {sequences : List (Nat × List Nat)}

theorem path?_ofSequences (id : Nat) : (ofSequences sequences).path? id =
    ((Ascending.ofEntries sequences)[id]?).map fun entry => ⟨entry.2, [entry.1]⟩ := by
  have found := lookup_zipIdx (fun entry : Nat × List Nat => (⟨entry.2, [entry.1]⟩ : HopPath))
    (Ascending.ofEntries sequences) 0 id
  rw [if_pos (Nat.zero_le id)] at found
  exact found

theorem keys_ofSequences : (ofSequences sequences).locations.map (·.1) =
    (Ascending.ofEntries sequences).map (·.1) := by
  have whole := congrArg (List.map (·.1)) (List.zipIdx_map_fst 0 (Ascending.ofEntries sequences))
  rw [List.map_map] at whole
  simp only [ofSequences, List.map_map]
  exact whole

theorem pathIds_ofSequences :
    (ofSequences sequences).pathIds = List.range (Ascending.ofEntries sequences).length := by
  simp only [pathIds, ofSequences, List.map_map]
  rw [List.range_eq_range', ← List.zipIdx_map_snd]
  rfl

theorem mem_locations_ofSequences {key : Nat} {location : PathLocation} :
    (key, location) ∈ (ofSequences sequences).locations ↔ location.offset = 0 ∧
      ∃ edges, (Ascending.ofEntries sequences)[location.path]? = some (key, edges) := by
  simp only [ofSequences, List.mem_map, Prod.mk.injEq]
  constructor
  · rintro ⟨⟨⟨_, edges⟩, id⟩, member, rfl, rfl⟩
    exact ⟨rfl, edges, List.mk_mem_zipIdx_iff_getElem?.mp member⟩
  · rintro ⟨start, edges, listed⟩
    refine ⟨((key, edges), location.path), List.mk_mem_zipIdx_iff_getElem?.mpr listed, rfl, ?_⟩
    rw [← start]

theorem numbered_ofSequences (sequences : List (Nat × List Nat)) :
    (ofSequences sequences).Numbered := by
  constructor
  · rw [pathIds_ofSequences]
    exact List.pairwise_lt_range
  · rw [pathIds_ofSequences]
    exact fun id => List.mem_range.mp

/-- A hop index starts with every sequence in a path of its own. -/
theorem sound_ofSequences (sequences : List (Nat × List Nat)) : (ofSequences sequences).Sound := by
  have ascending := Ascending.pairwise_ofEntries sequences
  have single := ascending.imp Nat.ne_of_lt
  have numbered := numbered_ofSequences sequences
  refine ⟨numbered, keys_ofSequences, ascending, ?_, ?_, ?_⟩
  · intro key location found
    obtain ⟨start, edges, listed⟩ := mem_locations_ofSequences.mp (mem_of_lookup found)
    refine ⟨edges, ⟨edges, [key]⟩, ?_, ?_, List.mem_singleton_self key, start ▸ .refl edges⟩
    · exact lookup_of_mem single (List.mem_of_getElem? listed)
    · rw [path?_ofSequences, listed]
      rfl
  · intro id path stored key member
    rw [path?_ofSequences] at stored
    obtain ⟨⟨own, edges⟩, listed, rfl⟩ := Option.map_eq_some_iff.mp stored
    obtain rfl := List.mem_singleton.mp member
    refine ⟨⟨id, 0⟩, lookup_of_mem ?_ (mem_locations_ofSequences.mpr ⟨rfl, edges, listed⟩), rfl⟩
    rw [keys_ofSequences]
    exact single
  · intro candidate member
    obtain ⟨a, left, b, right, -, folded⟩ :=
      (mem_allCandidates (numbered.ids.imp Nat.ne_of_lt)).mp member
    exact numbered.holds_of_fold left right folded

end OfSequences

end HopIndex

end RoadHierarchy
