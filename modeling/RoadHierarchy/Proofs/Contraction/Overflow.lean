import RoadHierarchy.Contraction.Simulation
import RoadHierarchy.Proofs.Outcome

/-! # Simulations fail only by overflow

A simulated contraction adds weights and distances, and it stops when a sum has no room in its
width. Nothing else about it can fail, whatever the graph is.
-/

namespace RoadHierarchy

/-- A sum had no room in its width. -/
abbrev Overflows : Failure → Prop := fun failure => failure = .overflow

/-- A sum had no room in its width, or the failure is the given one. -/
abbrev OverflowsOr (failure : Failure) : Failure → Prop :=
  fun cause => Overflows cause ∨ cause = failure

/-- What fails only by overflow may be part of what can also fail in another way. -/
theorem Returns.orElse {α : Type} {kind : α → Prop} {x : Except Failure α}
    (returns : Returns Overflows kind x) (failure : Failure) :
    Returns (OverflowsOr failure) kind x :=
  returns.imp (fun _ _ => .inl) fun _ _ given => given

theorem addWithin_returns (width a b : Nat) :
    Returns Overflows (fun sum => sum = a + b) (addWithin width a b) := by
  unfold addWithin
  split
  · exact rfl
  · exact rfl

namespace Witness.Query

variable (q : Query) (stop : Stop)

theorem relax_returns (f : Frontier) (edge : Edge) :
    Returns Overflows (fun _ => True) (q.relax stop f edge) := by
  unfold relax
  dsimp only
  split
  · trivial
  · apply (addWithin_returns 64 stop.distance edge.weight).bind
    intro distance _ _
    split
    · trivial
    · split <;> trivial

theorem relaxAll_returns (edges : List Edge) (f : Frontier) :
    Returns Overflows (fun _ => True) (q.relaxAll stop edges f) := by
  induction edges generalizing f with
  | nil => trivial
  | cons edge rest ih =>
    apply (q.relax_returns stop f edge).bind
    rintro (_ | later) _ _
    · trivial
    · exact ih later

theorem settle_returns (steps : Nat) (f : Frontier) :
    Returns Overflows (fun _ => True) (q.settle steps f) := by
  induction steps generalizing f with
  | zero => trivial
  | succ steps ih =>
    unfold settle
    split
    · trivial
    · dsimp only
      split
      · exact ih _
      · apply (q.relaxAll_returns _ _ _).bind
        rintro (_ | later) _ _
        · trivial
        · exact ih later

theorem hasPathFrom_returns (source : Nat) :
    Returns Overflows (fun _ => True) (q.hasPathFrom source) := by
  unfold hasPathFrom
  split
  · trivial
  · split
    · trivial
    · exact q.settle_returns _ _

end Witness.Query

theorem Simulation.keep_returns {α : Type} {test : α → Except Failure Bool}
    (tests : ∀ item, Returns Overflows (fun _ => True) (test item)) (items : List α) :
    Returns Overflows (fun _ => True) (keep test items) := by
  induction items with
  | nil => trivial
  | cons head rest ih =>
    apply (tests head).bind
    intro passes _ _
    apply ih.bind
    intro kept _ _
    trivial

namespace Graph

variable (g : Graph) (hopLimit v : Nat)

theorem needsShortcut_returns (avoids : Nat → Bool) (passage : Edge × Edge) :
    Returns Overflows (fun _ => True) (g.needsShortcut hopLimit v avoids passage) := by
  apply (addWithin_returns 64 passage.1.weight passage.2.weight).bind
  intro limit _ _
  apply (Witness.Query.hasPathFrom_returns _ _).bind
  intro found _ _
  trivial

theorem simulateAvoiding_returns (avoids : Nat → Bool) :
    Returns Overflows (fun _ => True) (g.simulateAvoiding hopLimit v avoids) := by
  apply (Simulation.keep_returns (g.needsShortcut_returns hopLimit v avoids) _).map
  intro needed _ _
  trivial

end Graph

end RoadHierarchy
