import Mathlib.Logic.Relation
import RoadHierarchy.Proofs.Contraction.Shortcut

/-! # The steps of a round

A round changes the graph by tuning priorities and depths, by putting shortcuts over its members,
and by closing its members. What holds of a round in between, or of a whole run, follows from what
each of these steps does.
-/

namespace RoadHierarchy.Graph

/-- A shortcut that a round may put over one of its members. -/
structure Bridging (members : List Nat) (g : Graph) (v : Nat) (edgeIn edgeOut : Edge)
    (bothWays : Bool) (u w : Nat) : Prop extends g.Passage v edgeIn edgeOut u w where
  back : bothWays = true → g.Crossing v edgeOut edgeIn w u
  inRound : v ∈ members
  unprocessed : g.isProcessed v = false
  start_stays : u ∉ members
  goal_stays : w ∉ members

/-- One change that a round of these members makes. -/
inductive Step (number : Nat) (members : List Nat) : Graph → Graph → Prop
  | tune {g h : Graph} : g.Tuned h → Step number members g h
  | bridge {g : Graph} {v : Nat} {edgeIn edgeOut : Edge} {bothWays : Bool} {u w : Nat} :
      Bridging members g v edgeIn edgeOut bothWays u w →
      Step number members g (g.bridge v edgeIn edgeOut bothWays)
  | close {g h : Graph} {v : Nat} : v ∈ members → g.markProcessed v number = .ok h →
      Step number members g h

/-- Several changes that a round of these members makes. -/
abbrev Steps (number : Nat) (members : List Nat) : Graph → Graph → Prop :=
  Relation.ReflTransGen (Step number members)

variable {g m h : Graph} {number v : Nat} {members : List Nat}

theorem Passage.mem_unprocessed {edgeIn edgeOut : Edge} {u w : Nat} (valid : g.WellFormed)
    (passage : g.Passage v edgeIn edgeOut u w) : u ∈ g.unprocessed ∧ w ∈ g.unprocessed := by
  obtain ⟨startKnown, goalKnown⟩ := passage.mem_vertices valid
  exact ⟨valid.mem_unprocessed.mpr ⟨startKnown, passage.start_open⟩,
    valid.mem_unprocessed.mpr ⟨goalKnown, passage.goal_open⟩⟩

/-- In which order the members are listed does not matter. -/
theorem Step.perm {others : List Nat} (same : members.Perm others)
    (step : Step number members g h) : Step number others g h := by
  cases step with
  | tune tuned => exact .tune tuned
  | bridge bridging =>
    obtain ⟨passage, back, inRound, unprocessed, start, goal⟩ := bridging
    rw [same.mem_iff] at inRound start goal
    exact .bridge ⟨passage, back, inRound, unprocessed, start, goal⟩
  | close member marked => exact .close (same.mem_iff.mp member) marked

theorem Steps.perm {others : List Nat} (same : members.Perm others)
    (steps : Steps number members g h) : Steps number others g h := by
  induction steps with
  | refl => exact .refl
  | tail _ step ih => exact ih.tail (step.perm same)

/-- The edges change only by a shortcut. -/
theorem Step.edges_cases (step : Step number members g h) : h.edges = g.edges ∨
    ∃ v edgeIn edgeOut bothWays u w, Bridging members g v edgeIn edgeOut bothWays u w ∧
      h = g.bridge v edgeIn edgeOut bothWays := by
  cases step with
  | tune tuned => exact .inl tuned.edges
  | bridge bridging => exact .inr ⟨_, _, _, _, _, _, bridging, rfl⟩
  | close _ marked =>
    obtain ⟨-, rfl⟩ := markProcessed_eq_ok.mp marked
    exact .inl rfl

namespace Step

variable (valid : g.WellFormed) (step : Step number members g h)
include valid step

theorem wellFormed : h.WellFormed := by
  cases step with
  | tune tuned => exact tuned.wellFormed valid
  | bridge bridging => exact valid.bridge bridging.into.1 bridging.out.1
  | close _ marked => exact valid.markProcessed marked

/-- A step closes no vertex or one member. -/
theorem closes : ∃ closed, (∀ v ∈ closed, v ∈ members) ∧ Closes number closed g h := by
  cases step with
  | tune tuned => exact ⟨[], by simp, .of_marks_eq number tuned.marks⟩
  | bridge bridging =>
    refine ⟨[], by simp, .of_marks_eq number ?_⟩
    rw [marks, bridge_vertices, marks]
  | @close _ v member marked => exact ⟨[v], by simpa, closes_of_markProcessed valid marked⟩

theorem preserves (kind : Nat → Prop) (wide : ∀ v ∈ g.unprocessed, kind v) :
    g.Preserves kind h := by
  cases step with
  | tune tuned => exact tuned.preserves kind
  | bridge bridging =>
    obtain ⟨start, goal⟩ := bridging.toPassage.mem_unprocessed valid
    have known := (valid.drives_lt bridging.into.1 bridging.into.2.2).2
    have via := valid.mem_unprocessed.mpr ⟨known, bridging.unprocessed⟩
    exact bridging.toCrossing.preserves valid bridging.back (wide _ start) (wide _ via)
      (wide _ goal)
  | close _ marked =>
    obtain ⟨-, rfl⟩ := markProcessed_eq_ok.mp marked
    exact .of_edges_eq Array.size_modify rfl

theorem confined : g.Confined (fun v => v ∈ g.unprocessed ∧ v ∉ members) h := by
  cases step with
  | tune tuned => exact .of_edges_eq tuned.edges
  | bridge bridging =>
    obtain ⟨start, goal⟩ := bridging.toPassage.mem_unprocessed valid
    exact bridging.toCrossing.confined valid ⟨start, bridging.start_stays⟩
      ⟨goal, bridging.goal_stays⟩
  | close _ marked =>
    obtain ⟨-, rfl⟩ := markProcessed_eq_ok.mp marked
    exact .of_edges_eq rfl

end Step

namespace Steps

variable (valid : g.WellFormed) (steps : Steps number members g h)
include valid steps

theorem wellFormed : h.WellFormed := by
  induction steps with
  | refl => exact valid
  | tail _ step ih => exact step.wellFormed ih

/-- What every step keeps, the round keeps. -/
theorem keeps {kept : Graph → Prop}
    (each : ∀ {m n : Graph}, m.WellFormed → Step number members m n → kept m → kept n)
    (initial : kept g) : kept h := by
  induction steps with
  | refl => exact initial
  | tail sofar step ih => exact each (wellFormed valid sofar) step ih

/-- Nothing is closed but members. -/
theorem closes : ∃ closed, (∀ v ∈ closed, v ∈ members) ∧ Closes number closed g h := by
  induction steps with
  | refl => exact ⟨[], by simp, .of_marks_eq number rfl⟩
  | tail sofar step ih =>
    obtain ⟨early, inside, before⟩ := ih
    obtain ⟨late, within, after⟩ := step.closes (wellFormed valid sofar)
    refine ⟨early ++ late, fun v member => ?_, before.trans after⟩
    exact (List.mem_append.mp member).elim (inside v) (within v)

theorem mem_of_mem_unprocessed (member : v ∈ h.unprocessed) : v ∈ g.unprocessed := by
  obtain ⟨closed, -, closes⟩ := closes valid steps
  exact ((closes.mem_unprocessed valid).mp member).1

theorem mem_unprocessed (member : v ∈ g.unprocessed) (stays : v ∉ members) :
    v ∈ h.unprocessed := by
  obtain ⟨closed, inside, closes⟩ := closes valid steps
  exact (closes.mem_unprocessed valid).mpr ⟨member, fun gone => stays (inside v gone)⟩

theorem preserves (kind : Nat → Prop) (wide : ∀ v ∈ g.unprocessed, kind v) :
    g.Preserves kind h := by
  induction steps with
  | refl => exact .of_edges_eq rfl rfl
  | tail sofar step ih =>
    refine ih.trans (step.preserves (wellFormed valid sofar) kind fun v member => wide v ?_)
    exact mem_of_mem_unprocessed valid sofar member

theorem confined : g.Confined (fun v => v ∈ g.unprocessed ∧ v ∉ members) h := by
  induction steps with
  | refl => exact .of_edges_eq rfl
  | tail sofar step ih =>
    refine ih.trans ((step.confined (wellFormed valid sofar)).mono fun v inside => ⟨?_, inside.2⟩)
    exact mem_of_mem_unprocessed valid sofar inside.1

/-- The edges at a member stay as they are. -/
theorem live_of_member (member : v ∈ members) {e : Edge} {u w : Nat} (step : g.live e u w)
    (ends : u = v ∨ w = v) : h.live e u w := by
  have grows := (preserves valid steps (fun _ => True) fun _ _ => trivial).grows
  refine (confined valid steps).live_of_outside grows step (ends.imp ?_ ?_)
  · rintro rfl outside
    exact outside.2 member
  · rintro rfl outside
    exact outside.2 member

theorem crossing (member : v ∈ members) {edgeIn edgeOut : Edge} {u w : Nat}
    (crossing : g.Crossing v edgeIn edgeOut u w) : h.Crossing v edgeIn edgeOut u w where
  into := live_of_member valid steps member crossing.into (.inr rfl)
  out := live_of_member valid steps member crossing.out (.inl rfl)
  start_apart := crossing.start_apart
  goal_apart := crossing.goal_apart
  apart := crossing.apart

end Steps

end RoadHierarchy.Graph
