import RoadHierarchy.Proofs.Contraction.Round

/-! # Runs

A hierarchy is built by rounds of independent vertices, in between which priorities and depths may
change. What every round keeps is kept by the whole run.
-/

namespace RoadHierarchy

namespace Graph

/-- The later graph comes from the earlier one by rounds with these members, numbered upwards. -/
inductive Run : Nat → Graph → List (List Nat) → Graph → Prop
  | done {number : Nat} {g h : Graph} : g.Tuned h → Run number g [] h
  | round {number : Nat} {g m next h : Graph} {members : List Nat} {rest : List (List Nat)} :
      g.Tuned m → m.Independent members → Contracts number members m next →
      Run (number + 1) next rest h → Run number g (members :: rest) h

variable {g m h : Graph} {number v : Nat} {rounds : List (List Nat)}

namespace Run

theorem of_tuned (tuned : g.Tuned m) (run : Run number m rounds h) : Run number g rounds h := by
  cases run with
  | done later => exact .done (tuned.trans later)
  | round later independent contracts rest =>
    exact .round (tuned.trans later) independent contracts rest

/-- A run goes on with the number of rounds that it has had. -/
theorem append {more : List (List Nat)} (run : Run number g rounds m)
    (later : Run (number + rounds.length) m more h) : Run number g (rounds ++ more) h := by
  induction run with
  | done tuned => exact later.of_tuned tuned
  | @round number _ _ _ _ _ rest tuned independent contracts _ ih =>
    have onward : number + (rest.length + 1) = number + 1 + rest.length := by omega
    rw [List.length_cons, onward] at later
    exact .round tuned independent contracts (ih later)

theorem wellFormed (run : Run number g rounds h) (valid : g.WellFormed) : h.WellFormed := by
  induction run with
  | done tuned => exact tuned.wellFormed valid
  | round tuned _ contracts _ ih => exact ih (contracts.wellFormed (tuned.wellFormed valid))

/-- What every step of every round keeps, the run keeps. -/
theorem keeps {kept : Graph → Prop} (run : Run number g rounds h) (valid : g.WellFormed)
    (each : ∀ {number : Nat} {members : List Nat} {m n : Graph}, m.WellFormed →
      Step number members m n → kept m → kept n) (initial : kept g) : kept h := by
  have tune : ∀ {m n : Graph}, m.WellFormed → m.Tuned n → kept m → kept n := by
    intro m n valid tuned
    have step : Step 0 [] m n := .tune tuned
    exact each valid step
  induction run with
  | done tuned => exact tune valid tuned initial
  | round tuned _ contracts _ ih =>
    have before := tuned.wellFormed valid
    exact ih (contracts.wellFormed before)
      (contracts.steps.keeps before each (tune valid tuned initial))

/-- Whatever vertices there are, no way between them becomes shorter or longer. -/
theorem preserves (run : Run number g rounds h) (valid : g.WellFormed) :
    g.Preserves (fun _ => True) h := by
  induction run with
  | done tuned => exact tuned.preserves _
  | round tuned _ contracts _ ih =>
    have before := tuned.wellFormed valid
    have kept := contracts.steps.preserves before (fun _ => True) fun _ _ => trivial
    exact (tuned.preserves _).trans (kept.trans (ih (contracts.wellFormed before)))

/-- Every vertex that was unprocessed has been contracted in some round, or still is unprocessed. -/
theorem unprocessed (run : Run number g rounds h) :
    g.unprocessed.Perm (rounds.flatten ++ h.unprocessed) := by
  induction run with
  | done tuned =>
    rw [tuned.unprocessed]
    exact .refl _
  | round tuned _ contracts _ ih =>
    rw [List.flatten_cons, List.append_assoc, ← tuned.unprocessed]
    exact contracts.closes.unprocessed.trans (ih.append_left _)

/-- Between vertices that are still unprocessed, the same lengths suffice in the core as before. -/
theorem core_reaches_iff (run : Run number g rounds h) (valid : g.WellFormed) {u w limit : Nat}
    (start : u ∈ h.unprocessed) (goal : w ∈ h.unprocessed) :
    h.core.Reaches u w limit ↔ g.core.Reaches u w limit := by
  induction run with
  | done tuned => rw [tuned.core]
  | @round _ _ _ next h _ _ tuned independent contracts rest ih =>
    have before := tuned.wellFormed valid
    have inner : ∀ v, v ∈ h.unprocessed → v ∈ next.unprocessed := fun v member =>
      rest.unprocessed.mem_iff.mpr (List.mem_append_right _ member)
    rw [ih (contracts.wellFormed before) start goal,
      contracts.core_reaches_iff before independent (inner u start) (inner w goal), tuned.core]

/-- Edges appear and change only between vertices that were unprocessed. -/
theorem confined (run : Run number g rounds h) (valid : g.WellFormed) :
    g.Confined (· ∈ g.unprocessed) h := by
  induction run with
  | done tuned => exact .of_edges_eq tuned.edges
  | @round _ g m next h members rest tuned _ contracts _ ih =>
    have before := tuned.wellFormed valid
    have inner : ∀ v, v ∈ next.unprocessed → v ∈ g.unprocessed := by
      intro v member
      rw [← tuned.unprocessed]
      exact ((contracts.closes.mem_unprocessed before).mp member).1
    have later := (contracts.confined before).trans (ih (contracts.wellFormed before))
    exact Confined.trans (.of_edges_eq tuned.edges) (later.mono inner)

/-- The round of a contracted vertex never changes. -/
theorem round?_of_processed (run : Run number g rounds h) (valid : g.WellFormed)
    (known : v < g.vertexCount) (processed : v ∉ g.unprocessed) : h.round? v = g.round? v := by
  induction run with
  | done tuned => exact tuned.round? v
  | round tuned _ contracts _ ih =>
    have before := tuned.wellFormed valid
    rw [← tuned.unprocessed] at processed
    rw [← tuned.vertexCount] at known
    have outside := mt
      (contracts.closes.unprocessed.mem_iff.mpr <| List.mem_append_left _ ·) processed
    rw [ih (contracts.wellFormed before), contracts.closes.round? v known, if_neg outside,
      tuned.round?]
    · rw [contracts.closes.vertexCount]
      exact known
    · exact fun member => processed ((contracts.closes.mem_unprocessed before).mp member).1

/-- The members of a round were unprocessed, and are given its number for ever. -/
theorem round?_of_mem (run : Run number g rounds h) (valid : g.WellFormed) {i : Nat}
    {members : List Nat} (found : rounds[i]? = some members) (member : v ∈ members) :
    v ∈ g.unprocessed ∧ h.round? v = some (number + i) := by
  induction run generalizing i with
  | done tuned => cases found
  | @round number _ _ next _ first _ tuned _ contracts rest ih =>
    have before := tuned.wellFormed valid
    have after := contracts.wellFormed before
    have stays := contracts.closes.mem_unprocessed (v := v) before
    rw [← tuned.unprocessed]
    cases i with
    | zero =>
      obtain rfl := Option.some.inj found
      have open_ := contracts.closes.unprocessed.mem_iff.mpr (List.mem_append_left _ member)
      have known := (before.mem_unprocessed.mp open_).1
      have later : v ∉ next.unprocessed := fun still => (stays.mp still).2 member
      refine ⟨open_, ?_⟩
      rw [rest.round?_of_processed after (contracts.closes.vertexCount ▸ known) later,
        contracts.closes.round? v known, if_pos member, Nat.add_zero]
    | succ i =>
      obtain ⟨open_, given⟩ := ih after found
      refine ⟨(stays.mp open_).1, ?_⟩
      rw [given, Nat.add_assoc, Nat.add_comm 1]

/-- Once no vertex is left, every vertex has been a member of some round. -/
theorem exists_round (run : Run number g rounds h) (complete : h.unprocessed = [])
    (member : v ∈ g.unprocessed) : ∃ (i : Nat) (members : List Nat),
      rounds[i]? = some members ∧ v ∈ members := by
  have contracted := run.unprocessed.mem_iff.mp member
  rw [complete, List.append_nil] at contracted
  obtain ⟨members, listed, inside⟩ := List.mem_flatten.mp contracted
  obtain ⟨i, found⟩ := List.mem_iff_getElem?.mp listed
  exact ⟨i, members, found, inside⟩

/-- Once no vertex is left, every vertex has been given a round of the run. -/
theorem round?_of_unprocessed (run : Run number g rounds h) (valid : g.WellFormed)
    (complete : h.unprocessed = []) (member : v ∈ g.unprocessed) :
    ∃ round, number ≤ round ∧ h.round? v = some round := by
  obtain ⟨i, members, found, inside⟩ := run.exists_round complete member
  exact ⟨number + i, Nat.le_add_right number i, (run.round?_of_mem valid found inside).2⟩

end Run

end Graph

end RoadHierarchy
