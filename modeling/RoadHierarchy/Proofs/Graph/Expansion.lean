import RoadHierarchy.Proofs.Graph.Unpacking

/-! # Unpacking is recursive expansion

What an edge stands for is defined by recursion over pairs, which name smaller ids in every graph
that operations can build, also where a shortcut has nothing to do with the ends of its pair.
Unpacking lists exactly this. So does a loop over a stack of legs that follows pairs without looking
at their ids, and it ends after a number of turns that can be read off the list.
-/

namespace RoadHierarchy.Graph

variable {g : Graph}

namespace WellFormed

theorem edge?_edge (e : Fin g.edgeCount) : g.edge? e = some g.edges[e] :=
  (edge?_eq_some e.isLt).mpr (Array.getElem?_eq_getElem e.isLt)

/-- The halves of a shortcut come before it. -/
theorem halves_lt (valid : g.WellFormed) {e : Fin g.edgeCount} {pair : Nat × Nat}
    (stands : g.edges[e].pair = some pair) : pair.1 < e ∧ pair.2 < e := by
  have named : g.edges[e].id = e := valid.edge_id e _ (Array.getElem?_eq_getElem e.isLt)
  exact named ▸ valid.pair_lt _ (Array.getElem_mem e.isLt) pair stands

/-- The input edges that an edge stands for when it is entered at `start`. A shortcut that is entered
at its source stands for its first half and then its second, and otherwise for its second half and
then its first. The other half is entered at the end of the first half that is not the source. -/
def expand (valid : g.WellFormed) (e : Fin g.edgeCount) (start : Nat) : List Nat :=
  match stands : g.edges[e].pair with
  | none => [e]
  | some pair =>
      have older := valid.halves_lt stands
      let first : Fin g.edgeCount := ⟨pair.1, older.1.trans e.isLt⟩
      let second : Fin g.edgeCount := ⟨pair.2, older.2.trans e.isLt⟩
      let via := g.edges[first].other g.edges[e].source
      if start = g.edges[e].source then
        expand valid first g.edges[e].source ++ expand valid second via
      else expand valid second g.edges[e].target ++ expand valid first via
  termination_by e

section Equations

variable (valid : g.WellFormed) {e first second : Fin g.edgeCount}
include valid

theorem expand_of_none (stands : g.edges[e].pair = none) (start : Nat) :
    valid.expand e start = [↑e] := by
  rw [expand]
  split
  · rfl
  · next other => cases stands.symm.trans other

theorem expand_forth (stands : g.edges[e].pair = some (↑first, ↑second)) :
    valid.expand e g.edges[e].source = valid.expand first g.edges[e].source ++
      valid.expand second (g.edges[first].other g.edges[e].source) := by
  rw [expand]
  split
  · next other => cases stands.symm.trans other
  · next other =>
    cases stands.symm.trans other
    rw [if_pos rfl]

theorem expand_back (stands : g.edges[e].pair = some (↑first, ↑second)) {start : Nat}
    (back : start ≠ g.edges[e].source) :
    valid.expand e start = valid.expand second g.edges[e].target ++
      valid.expand first (g.edges[first].other g.edges[e].source) := by
  rw [expand]
  split
  · next other => cases stands.symm.trans other
  · next other =>
    cases stands.symm.trans other
    rw [if_neg back]

/-- What is shown for input edges, and for shortcuts when it holds for their halves, is true of every
expansion. -/
theorem expand_cases {motive : Fin g.edgeCount → Nat → List Nat → Prop}
    (input : ∀ e start, g.edges[e].pair = none → motive e start [↑e])
    (shortcut : ∀ (e first left right : Fin g.edgeCount) (pair : Nat × Nat) (start entry exit : Nat)
      (before after : List Nat), g.edges[e].pair = some pair → pair.1 = first →
      g.edges[e].legs g.edges[first] pair start = (⟨left, entry⟩, ⟨right, exit⟩) →
      motive left entry before → motive right exit after → motive e start (before ++ after))
    (e : Fin g.edgeCount) (start : Nat) : motive e start (valid.expand e start) := by
  induction e, start using expand.induct valid with
  | case1 e start stands =>
    rw [valid.expand_of_none stands]
    exact input e start stands
  | case2 e pair stands older first second via forth onward =>
    have named : g.edges[e].pair = some (first.val, second.val) := stands
    rw [valid.expand_forth named]
    refine shortcut e first first second pair _ _ _ _ _ stands rfl ?_ forth onward
    exact if_pos rfl
  | case3 e start pair stands older first second via back forth onward =>
    have named : g.edges[e].pair = some (first.val, second.val) := stands
    rw [valid.expand_back named back]
    refine shortcut e first second first pair _ _ _ _ _ stands rfl ?_ forth onward
    exact if_neg back

end Equations

/-- Only input edges are listed. -/
theorem input_of_mem_expand (valid : g.WellFormed) (e : Fin g.edgeCount) (start : Nat) :
    ∀ x ∈ valid.expand e start, ∃ edge, g.edges[x]? = some edge ∧ edge.isShortcut = false := by
  refine valid.expand_cases (motive := fun _ _ listed =>
    ∀ x ∈ listed, ∃ edge, g.edges[x]? = some edge ∧ edge.isShortcut = false) ?input ?shortcut e start
  case input =>
    intro e start stands x member
    obtain rfl := List.mem_singleton.mp member
    exact ⟨_, Array.getElem?_eq_getElem e.isLt, Edge.isShortcut_eq_false.mpr stands⟩
  case shortcut =>
    intro e first left right pair start entry exit before after _ _ _ inBefore inAfter x member
    exact (List.mem_append.mp member).elim (inBefore x) (inAfter x)

theorem split?_of_none {e : Fin g.edgeCount} (stands : g.edges[e].pair = none) (start : Nat) :
    g.split? ⟨e, start⟩ = none := by
  rw [split?, edge?_edge, Option.bind_eq_bind, Option.bind_some, stands]
  rfl

theorem split?_of_some (valid : g.WellFormed) {e first : Fin g.edgeCount} {pair : Nat × Nat}
    (stands : g.edges[e].pair = some pair) (named : pair.1 = first) (start : Nat) :
    g.split? ⟨e, start⟩ = some (g.edges[e].legs g.edges[first] pair start) := by
  rw [split?, edge?_edge, Option.bind_eq_bind, Option.bind_some, stands, Option.bind_eq_bind,
    Option.bind_some, named, edge?_edge, ← named]
  exact if_pos (valid.halves_lt stands)

/-- Driving an edge is expanding it. -/
theorem drive_eq_expand (valid : g.WellFormed) (e : Fin g.edgeCount) (start : Nat) :
    g.drive [⟨e, start⟩] = valid.expand e start := by
  refine valid.expand_cases (motive := fun e start listed => g.drive [⟨e, start⟩] = listed)
    ?input ?shortcut e start
  case input =>
    intro e start stands
    rw [drive_cons_of_none [] (split?_of_none stands start), drive]
  case shortcut =>
    intro e first left right pair start entry exit before after stands named legs into out
    have halves := (valid.split?_of_some stands named start).trans (congrArg some legs)
    rw [drive_of_split? halves, into, out]

end WellFormed

/-- One turn of a loop over a stack of legs, whose top comes first. The top is listed if it is an
input edge. Otherwise what it stands for takes its place, whatever the ids of the pair are. -/
def turn (g : Graph) (leg : Leg) (rest : List Leg) (listed : List Nat) :
    Except Failure (List Leg × List Nat) := do
  let edge ← g.edge leg.edge
  match edge.pair with
  | none => return (rest, listed ++ [leg.edge])
  | some pair =>
      let first ← g.edge pair.1
      let (left, right) := edge.legs first pair leg.start
      return (left :: right :: rest, listed)

/-- The loop runs out of legs after so many turns and has listed the last list then. -/
inductive Loops (g : Graph) : Nat → List Leg → List Nat → List Nat → Prop
  | done (listed : List Nat) : Loops g 0 [] listed listed
  | turn {leg : Leg} {rest stack : List Leg} {listed more result : List Nat} {turns : Nat} :
      g.turn leg rest listed = .ok (stack, more) → Loops g turns stack more result →
      Loops g (turns + 1) (leg :: rest) listed result

/-- The loop ends in one way only. -/
theorem Loops.unique {stack : List Leg} {listed result other : List Nat} {turns more : Nat}
    (loops : g.Loops turns stack listed result) (again : g.Loops more stack listed other) :
    more = turns ∧ other = result := by
  induction loops generalizing more with
  | done => cases again; exact ⟨rfl, rfl⟩
  | turn first _ ih =>
    cases again with
    | turn second rest =>
      cases first.symm.trans second
      obtain ⟨rfl, same⟩ := ih rest
      exact ⟨rfl, same⟩

/-- Wherever the leg is on top, the loop gets back to what is below it after so many turns, having
added these edges to the list. -/
def Follows (g : Graph) (leg : Leg) (turns : Nat) (listed : List Nat) : Prop :=
  ∀ (rest : List Leg) (before result : List Nat) (later : Nat),
    g.Loops later rest (before ++ listed) result →
      g.Loops (later + turns) (leg :: rest) before result

theorem turn_of_none {e : Fin g.edgeCount} (stands : g.edges[e].pair = none) (start : Nat)
    (rest : List Leg) (listed : List Nat) :
    g.turn ⟨e, start⟩ rest listed = .ok (rest, listed ++ [e.val]) := by
  refine bind_eq_ok.mpr ⟨g.edges[e], edge_eq_ok.mpr (WellFormed.edge?_edge e), ?_⟩
  rw [stands]
  rfl

theorem turn_of_some {e first : Fin g.edgeCount} {pair : Nat × Nat} {left right : Leg} {start : Nat}
    (stands : g.edges[e].pair = some pair) (named : pair.1 = first)
    (legs : g.edges[e].legs g.edges[first] pair start = (left, right)) (rest : List Leg)
    (listed : List Nat) :
    g.turn ⟨e, start⟩ rest listed = .ok (left :: right :: rest, listed) := by
  refine bind_eq_ok.mpr ⟨g.edges[e], edge_eq_ok.mpr (WellFormed.edge?_edge e), ?_⟩
  rw [stands]
  refine bind_eq_ok.mpr ⟨g.edges[first], ?_, ?_⟩
  · rw [named]
    exact edge_eq_ok.mpr (WellFormed.edge?_edge first)
  · rw [legs]
    rfl

/-- The loop follows a leg with one turn for each edge that it lists and one for each shortcut, of
which there is one fewer. -/
theorem WellFormed.follows_expand (valid : g.WellFormed) (e : Fin g.edgeCount) (start : Nat) :
    ∃ turns, turns + 1 = 2 * (valid.expand e start).length ∧
      g.Follows ⟨e, start⟩ turns (valid.expand e start) := by
  refine valid.expand_cases (motive := fun e start listed =>
    ∃ turns, turns + 1 = 2 * listed.length ∧ g.Follows ⟨e, start⟩ turns listed)
    ?input ?shortcut e start
  case input =>
    intro e start stands
    exact ⟨1, rfl, fun rest before result later loops =>
      .turn (turn_of_none stands start rest before) loops⟩
  case shortcut =>
    intro e first left right pair start entry exit parts more stands named legs into out
    obtain ⟨m, counted, follows⟩ := into
    obtain ⟨n, counts, goesOn⟩ := out
    refine ⟨n + m + 1, ?_, fun rest before result later loops => ?_⟩
    · rw [List.length_append]
      omega
    · -- The first leg is followed while the second one waits below it.
      have onward := goesOn rest (before ++ parts) result later
        (by rw [List.append_assoc]; exact loops)
      have through := follows (⟨right, exit⟩ :: rest) before result (later + n) onward
      rw [← Nat.add_assoc, ← Nat.add_assoc]
      exact .turn (turn_of_some stands named legs rest before) through

/-- Unpacking an edge of any graph that operations can build lists its recursive expansion. A loop
over a stack, which does not look at ids, ends, and with the same list, after one turn for each edge
in it and one for each shortcut that was followed. Nothing but input edges is listed. -/
theorem unpack_eq_expand (reachable : g.Reachable) (e : Fin g.edgeCount) :
    let listed := reachable.wellFormed.expand e g.edges[e].source
    g.unpack e = .ok listed ∧
      (∀ turns result, g.Loops turns [⟨e, g.edges[e].source⟩] [] result ↔
        turns + 1 = 2 * listed.length ∧ result = listed) ∧
      ∀ x ∈ listed, ∃ edge, g.edges[x]? = some edge ∧ edge.isShortcut = false := by
  have valid := reachable.wellFormed
  refine ⟨?_, fun turns result => ?_, valid.input_of_mem_expand e _⟩
  · refine bind_eq_ok.mpr ⟨g.edges[e], edge_eq_ok.mpr (WellFormed.edge?_edge e), ?_⟩
    exact congrArg Except.ok (valid.drive_eq_expand e _)
  · obtain ⟨needed, counted, follows⟩ := valid.follows_expand e g.edges[e].source
    have loops := follows [] [] _ 0 (.done _)
    rw [Nat.zero_add] at loops
    constructor
    · intro ends
      obtain ⟨rfl, same⟩ := loops.unique ends
      exact ⟨counted, same⟩
    · rintro ⟨bound, rfl⟩
      obtain rfl : needed = turns := by omega
      exact loops

/-- Two roads, a shortcut that goes where neither of them does, and a loop that stands for this
shortcut twice, once in each direction. -/
theorem unpack_eq_expand_unrelated : ∃ (g : Graph) (reachable : g.Reachable) (known : 3 < g.edgeCount),
    List.foldlM Operation.perform .empty
      [.addVertex 0 0, .addVertex 0 0, .addVertex 0 0, .addEdge 0 1 5 false, .addEdge 2 0 5 false,
        .addShortcut 1 2 1 1 (1, 0) false, .addShortcut 2 2 1 1 (2, 2) true] = .ok g ∧
    g.unpack 3 = .ok [0, 1, 1, 0] ∧
    reachable.wellFormed.expand ⟨3, known⟩ g.edges[3].source = [0, 1, 1, 0] ∧
    g.Loops 7 [⟨3, g.edges[3].source⟩] [] [0, 1, 1, 0] := by
  have computed : (do
      let g ← List.foldlM Operation.perform .empty
        [.addVertex 0 0, .addVertex 0 0, .addVertex 0 0, .addEdge 0 1 5 false,
          .addEdge 2 0 5 false, .addShortcut 1 2 1 1 (1, 0) false,
          .addShortcut 2 2 1 1 (2, 2) true]
      let listed ← g.unpack 3
      return (g.edgeCount, listed)).toOption = some (4, [0, 1, 1, 0]) := by
    decide +kernel
  obtain ⟨g, built, computed⟩ := bind_eq_ok.mp (toOption_eq_some.mp computed)
  obtain ⟨listed, unpacked, computed⟩ := bind_eq_ok.mp computed
  obtain ⟨edges, rfl⟩ := Prod.mk.inj (pure_eq_ok.mp computed)
  have reachable : g.Reachable := foldlM_keeps Reachable
    (fun operation _ _ _ success reachable => .perform operation reachable success) built .empty
  have known : 3 < g.edgeCount := by omega
  obtain ⟨agrees, ends, -⟩ := unpack_eq_expand reachable ⟨3, known⟩
  have expansion := Except.ok.inj (agrees.symm.trans unpacked)
  rw [expansion] at ends
  exact ⟨g, reachable, known, built, unpacked, expansion, (ends 7 _).mpr ⟨rfl, rfl⟩⟩

end RoadHierarchy.Graph
