import Mathlib.Data.Prod.Lex
import Mathlib.Order.Bounds.Basic
import RoadHierarchy.Proofs.HopPath.Maximal
import RoadHierarchy.Proofs.Queue.Agenda

/-! # Combining is greedy

The greedy rule looks at all stored paths before every merge. Of the folds of a path into a different
one it takes the one with the most edges in common, and among those the one with the lowest pair of
ids. It leaves no choice, and so its merges and their outcome are unique. The queue of candidates
gives the same merges although nothing is ever looked at again: it holds the available folds, in the
order in which the rule takes them, among others that have become stale.
-/

namespace RoadHierarchy

/-- The first fold has more edges in common, or as many and a lower pair of ids, if they differ. -/
def FoldCandidate.Precedes (a b : FoldCandidate) : Prop :=
  b.shared < a.shared ∨ a.shared = b.shared ∧
    toLex (a.contained, a.container) ≤ toLex (b.contained, b.container)

/-- The stored paths by id, the locations by key and the next id, without any queue. -/
structure Layout where
  paths : List (Nat × HopPath)
  locations : List (Nat × PathLocation)
  nextId : Nat

namespace Layout

/-- The edges of the first path, one at least, occur in the second one, which is a different path,
and the fold tells where they do so first. -/
structure Folds (layout : Layout) (fold : FoldCandidate) (inner outer : HopPath) : Prop where
  contained : layout.paths.lookup fold.contained = some inner
  container : layout.paths.lookup fold.container = some outer
  apart : fold.contained ≠ fold.container
  filled : inner.edges ≠ []
  first : IsLeast {offset | Occurs inner.edges offset outer.edges} fold.offset
  shared : fold.shared = inner.edges.length

/-- Two of the stored paths fold like this. -/
def Available (layout : Layout) (fold : FoldCandidate) : Prop :=
  ∃ inner outer, layout.Folds fold inner outer

/-- The fold precedes every other one between stored paths. -/
def Greediest (layout : Layout) (fold : FoldCandidate) : Prop :=
  layout.Available fold ∧ ∀ other, layout.Available other → fold.Precedes other

/-- The paths of a fold give way to the second one under a new id and with the keys of both. The keys
of the first one move by the offset. -/
def replace (layout : Layout) (fold : FoldCandidate) (inner outer : HopPath) : Layout where
  paths := layout.paths.filter (fun path => path.1 != fold.contained && path.1 != fold.container) ++
    [(layout.nextId, outer.absorb inner)]
  locations := layout.locations.map fun (key, location) =>
    (key, HopIndex.relocate fold inner outer layout.nextId key location)
  nextId := layout.nextId + 1

/-- The greedy rule makes these merges, until no fold is available. -/
inductive Greedy : Layout → List FoldCandidate → Layout → Prop
  | done {layout : Layout} : (∀ fold, ¬ layout.Available fold) → Greedy layout [] layout
  | merge {layout last : Layout} {fold : FoldCandidate} {inner outer : HopPath}
      {merges : List FoldCandidate} :
      layout.Greediest fold → layout.Folds fold inner outer →
      Greedy (layout.replace fold inner outer) merges last → Greedy layout (fold :: merges) last

end Layout

namespace HopIndex

/-- A hop index without its queue. -/
def layout (index : HopIndex) : Layout := ⟨index.paths, index.locations, index.nextId⟩

/-- The queue gives these merges, until no candidate is current. -/
inductive Merges : HopIndex → List FoldCandidate → HopIndex → Prop
  | done {index : HopIndex} : nextCurrent index.paths index.candidates = none →
      Merges index [] { index with candidates := [] }
  | merge {index last : HopIndex} {candidate : FoldCandidate} {rest merges : List FoldCandidate} :
      nextCurrent index.paths index.candidates = some (candidate, rest) →
      Merges ({ index with candidates := rest }.merge candidate) merges last →
      Merges index (candidate :: merges) last

end HopIndex

namespace FoldCandidate

variable {a b : FoldCandidate}

theorem precedes_iff : a.Precedes b ↔ b.shared < a.shared ∨ a.shared = b.shared ∧
    (a.contained < b.contained ∨ a.contained = b.contained ∧ a.container ≤ b.container) := by
  rw [Precedes, Prod.Lex.toLex_le_toLex]

theorem Precedes.antisymm (first : a.Precedes b) (second : b.Precedes a) :
    a.shared = b.shared ∧ a.contained = b.contained ∧ a.container = b.container := by
  rw [precedes_iff] at first second
  omega

/-- The queue is kept in the order in which the greedy rule takes folds. -/
theorem decides_due : Agenda.Decides due Precedes := by
  refine ⟨fun a b early => ?_, fun a b late => ?_, fun a b c first second => ?_⟩
  · simp only [due, Bool.or_eq_true, Bool.and_eq_true, decide_eq_true_eq, beq_iff_eq] at early
    exact precedes_iff.mpr early
  · simp only [due, Bool.or_eq_false_iff, Bool.and_eq_false_iff, decide_eq_false_iff_not,
      beq_eq_false_iff_ne] at late
    rw [precedes_iff]
    omega
  · rw [precedes_iff] at first second ⊢
    omega

end FoldCandidate

namespace Layout

variable {layout last : Layout} {fold other : FoldCandidate} {inner outer : HopPath}

/-- Two folds of one path into another are the same. -/
theorem Folds.unique {inner' outer' : HopPath} (folds : layout.Folds fold inner outer)
    (again : layout.Folds other inner' outer') (contained : fold.contained = other.contained)
    (container : fold.container = other.container) :
    fold = other ∧ inner = inner' ∧ outer = outer' := by
  obtain ⟨inside, around, -, -, first, shared⟩ := folds
  obtain ⟨inside', around', -, -, first', shared'⟩ := again
  rw [contained, inside'] at inside
  rw [container, around'] at around
  cases inside
  cases around
  have offset := first.unique first'
  cases fold
  cases other
  simp_all

theorem Greediest.unique (greediest : layout.Greediest fold) (also : layout.Greediest other) :
    fold = other := by
  obtain ⟨⟨inner, outer, folds⟩, first⟩ := greediest
  obtain ⟨⟨inner', outer', again⟩, second⟩ := also
  obtain ⟨-, contained, container⟩ :=
    (first other ⟨_, _, again⟩).antisymm (second fold ⟨_, _, folds⟩)
  exact (folds.unique again contained container).1

/-- The greedy rule leaves no choice. -/
theorem Greedy.unique {merges others : List FoldCandidate} {final : Layout}
    (greedy : layout.Greedy merges last) (also : layout.Greedy others final) :
    others = merges ∧ final = last := by
  induction greedy generalizing others final with
  | done idle =>
    cases also with
    | done => exact ⟨rfl, rfl⟩
    | merge greediest => exact (idle _ greediest.1).elim
  | merge greediest folds _ ih =>
    cases also with
    | done idle => exact (idle _ greediest.1).elim
    | merge greediest' folds' later =>
      obtain rfl := greediest.unique greediest'
      obtain ⟨-, rfl, rfl⟩ := folds.unique folds' rfl rfl
      obtain ⟨rfl, rfl⟩ := ih later
      exact ⟨rfl, rfl⟩

end Layout

namespace HopIndex

variable {index last : HopIndex} {candidate : FoldCandidate} {rest merges : List FoldCandidate}
  {inner outer : HopPath}

theorem fold?_eq_some_iff {a b : Nat × HopPath} : fold? a b = some candidate ↔
    candidate.contained = a.1 ∧ candidate.container = b.1 ∧ a.2.edges ≠ [] ∧
      IsLeast {offset | Occurs a.2.edges offset b.2.edges} candidate.offset ∧
      candidate.shared = a.2.edges.length := by
  rw [fold?, Option.map_eq_some_iff]
  constructor
  · rintro ⟨offset, found, rfl⟩
    obtain ⟨filled, first⟩ := occurrence?_eq_some_iff.mp found
    exact ⟨rfl, rfl, filled, first, rfl⟩
  · obtain ⟨contained, container, offset, shared⟩ := candidate
    rintro ⟨rfl, rfl, filled, first, rfl⟩
    exact ⟨offset, occurrence?_eq_some_iff.mpr ⟨filled, first⟩, rfl⟩

theorem folds_iff : index.layout.Folds candidate inner outer ↔
    index.path? candidate.contained = some inner ∧ index.path? candidate.container = some outer ∧
      candidate.contained ≠ candidate.container ∧
      fold? (candidate.contained, inner) (candidate.container, outer) = some candidate := by
  rw [fold?_eq_some_iff]
  constructor
  · rintro ⟨inside, around, apart, filled, first, shared⟩
    exact ⟨inside, around, apart, rfl, rfl, filled, first, shared⟩
  · rintro ⟨inside, around, apart, -, -, filled, first, shared⟩
    exact ⟨inside, around, apart, filled, first, shared⟩

/-- The queue has the available folds, in the order of the greedy rule, and stale ones. -/
structure Ready (index : HopIndex) : Prop where
  sound : index.Sound
  queued : index.Queued index.paths
  sorted : index.candidates.Pairwise FoldCandidate.Precedes

theorem pairwise_candidatesOf (path : Nat × HopPath) (others : List (Nat × HopPath)) :
    (candidatesOf path others).Pairwise FoldCandidate.Precedes :=
  FoldCandidate.decides_due.pairwise_ofList _

theorem sorted_merge (sorted : index.candidates.Pairwise FoldCandidate.Precedes)
    (candidate : FoldCandidate) :
    (index.merge candidate).candidates.Pairwise FoldCandidate.Precedes := by
  unfold merge
  split
  · exact FoldCandidate.decides_due.pairwise_merge (pairwise_candidatesOf _ _) sorted
  · exact sorted

theorem layout_merge (inside : index.path? candidate.contained = some inner)
    (around : index.path? candidate.container = some outer) :
    (index.merge candidate).layout = index.layout.replace candidate inner outer := by
  simp only [layout, merge, inside, around, Layout.replace]

namespace Ready

variable (ready : index.Ready)
include ready

/-- Available are just the folds that current candidates name. -/
theorem available_iff : index.layout.Available candidate ↔
    candidate ∈ index.candidates ∧ isCurrent index.paths candidate = true := by
  rw [isCurrent_iff]
  constructor
  · rintro ⟨inner, outer, folds⟩
    obtain ⟨inside, around, apart, folded⟩ := folds_iff.mp folds
    have left := ready.sound.path?_eq_some.mp inside
    have right := ready.sound.path?_eq_some.mp around
    exact ⟨ready.queued.complete _ left _ right apart candidate folded,
      inner, outer, inside, around⟩
  · rintro ⟨member, inner, outer, inside, around⟩
    exact ⟨inner, outer, folds_iff.mpr ⟨inside, around, ready.queued.apart candidate member,
      ready.queued.folded candidate member inner outer inside around⟩⟩

/-- The first current candidate is the one that the greedy rule takes. -/
theorem greediest (found : nextCurrent index.paths index.candidates = some (candidate, rest)) :
    index.layout.Greediest candidate := by
  obtain ⟨current, stale, listed, before⟩ := nextCurrent_eq_some found
  have member : candidate ∈ index.candidates := by simp [listed]
  refine ⟨ready.available_iff.mpr ⟨member, current⟩, fun other available => ?_⟩
  obtain ⟨queued, stored⟩ := ready.available_iff.mp available
  have sorted := ready.sorted
  rw [listed] at queued sorted
  have ordered := List.pairwise_cons.mp (List.pairwise_append.mp sorted).2.1
  -- An available fold is queued and current, so that it cannot be among the stale ones in front.
  rcases List.mem_append.mp queued with gone | remains
  · rw [before other gone] at stored
    cases stored
  · rcases List.mem_cons.mp remains with rfl | later
    · exact FoldCandidate.precedes_iff.mpr (by omega)
    · exact ordered.1 other later

/-- A merge puts the new candidates in their places. -/
theorem merge (found : nextCurrent index.paths index.candidates = some (candidate, rest)) :
    ({ index with candidates := rest }.merge candidate).Ready := by
  obtain ⟨-, stale, listed, -⟩ := nextCurrent_eq_some found
  obtain ⟨inner, outer, inside, around, -⟩ := exists_stored found
  have sorted := ready.sorted
  rw [listed] at sorted
  have remaining := (List.pairwise_cons.mp (List.pairwise_append.mp sorted).2.1).2
  exact ⟨ready.sound.combining (.merge found), ready.queued.combining ready.sound (.merge found),
    sorted_merge remaining candidate⟩

/-- The queue makes the merges of the greedy rule. -/
theorem greedy (trace : index.Merges merges last) : index.layout.Greedy merges last.layout := by
  induction trace with
  | done none =>
    refine .done fun fold available => ?_
    obtain ⟨member, current⟩ := ready.available_iff.mp available
    rw [nextCurrent_eq_none.mp none fold member] at current
    cases current
  | @merge index last candidate rest merges found _ ih =>
    have greediest := ready.greediest found
    obtain ⟨inner, outer, folds⟩ := greediest.1
    have after : ({ index with candidates := rest }.merge candidate).layout =
        index.layout.replace candidate inner outer :=
      layout_merge folds.contained folds.container
    refine .merge greediest folds ?_
    rw [← after]
    exact ih (ready.merge found)

end Ready

end HopIndex

end RoadHierarchy
