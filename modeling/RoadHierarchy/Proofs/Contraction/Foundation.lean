import RoadHierarchy.Proofs.Contraction.Composition
import RoadHierarchy.Proofs.Contraction.Stages

/-! # Shortcuts rest on live edges

A shortcut is put over a vertex in the round that contracts the vertex. From then on nothing changes
at that vertex, so the two edges that the shortcut stands for stay live, whatever becomes of the
shortcut itself. Its ends are contracted in later rounds.
-/

namespace RoadHierarchy

namespace Graph

/-- The edge stands for two live edges that meet at a vertex. -/
def Spans (g : Graph) (via : Nat) (e : Edge) : Prop :=
  ∃ first second, e.Composes first second via ∧ g.live first e.source via ∧
    g.live second via e.target

/-- The vertex has not been contracted in this round or earlier. -/
def Above (g : Graph) (low v : Nat) : Prop :=
  ∀ round, g.round? v = some round → low < round

/-- The edge stands for two live edges that meet at a vertex which has been contracted in one of the
first rounds, and before the ends of the edge. -/
def Carries (g : Graph) (number : Nat) (e : Edge) : Prop :=
  ∃ via low, g.Spans via e ∧ g.round? via = some low ∧ low < number ∧
    g.Above low e.source ∧ g.Above low e.target

/-- Every shortcut rests on two live edges. -/
def Rests (number : Nat) (g : Graph) : Prop :=
  ∀ e ∈ g.edges, e.isShortcut = true → g.Carries number e

/-- Every edge was there when the round began, or stands for two live edges that meet at a member. -/
def Laid (g : Graph) (members : List Nat) (m : Graph) : Prop :=
  ∀ e ∈ m.edges, (∃ old ∈ g.edges, old.Ages e) ∨ ∃ via ∈ members, m.Spans via e

variable {g m n h : Graph} {number low v via : Nat} {members : List Nat} {sets : List (List Nat)}
  {e e' : Edge}

theorem WellFormed.round?_eq_none_iff (valid : g.WellFormed) (known : v < g.vertexCount) :
    g.round? v = none ↔ v ∈ g.unprocessed := by
  have found : g.vertices[v]? = some g.vertices[v] := Array.getElem?_eq_getElem known
  have noted := valid.round_iff _ (Array.getElem_mem known)
  rw [valid.mem_unprocessed, isProcessed_eq_false_iff known, round?, vertex?_of_lt known, found]
  cases flag : g.vertices[v].processed with
  | false =>
    rw [flag] at noted
    simp_all
  | true => simp_all [Option.isSome_iff_ne_none]

theorem Spans.mem_vertices (spans : g.Spans via e) (valid : g.WellFormed) :
    via < g.vertexCount ∧ e.source < g.vertexCount ∧ e.target < g.vertexCount := by
  obtain ⟨first, second, -, into, out⟩ := spans
  obtain ⟨source, known⟩ := valid.drives_lt into.1 into.2.2
  exact ⟨known, source, (valid.drives_lt out.1 out.2.2).2⟩

/-- When the edges at a vertex stay live, what stands over it does so in whatever form it has. -/
theorem Spans.ages (spans : g.Spans via e) (aged : e.Ages e')
    (kept : ∀ edge u w, g.live edge u w → u = via ∨ w = via → h.live edge u w) :
    h.Spans via e' := by
  obtain ⟨first, second, composes, into, out⟩ := spans
  refine ⟨first, second, composes.ages aged (.refl _) (.refl _), ?_, ?_⟩
  · rw [aged.source]
    exact kept _ _ _ into (.inr rfl)
  · rw [aged.target]
    exact kept _ _ _ out (.inl rfl)

namespace Laid

theorem start (g : Graph) (members : List Nat) : g.Laid members g :=
  fun e member => .inl ⟨e, member, .refl e⟩

theorem step (laid : g.Laid members m) (valid : m.WellFormed) (step : Step number members m n) :
    g.Laid members n := by
  have kept : ∀ via ∈ members, ∀ edge u w, m.live edge u w → u = via ∨ w = via →
      n.live edge u w := by
    intro via inRound edge u w alive ends
    exact Steps.live_of_member valid (.single step) inRound alive ends
  have older : ∀ old ∈ m.edges, ∀ e, old.Ages e →
      (∃ first ∈ g.edges, first.Ages e) ∨ ∃ via ∈ members, n.Spans via e := by
    intro old there e aged
    rcases laid old there with ⟨first, before, young⟩ | ⟨via, inRound, spans⟩
    · exact .inl ⟨first, before, young.trans aged⟩
    · exact .inr ⟨via, inRound, spans.ages aged (kept via inRound)⟩
  intro e member
  rcases step.edges_cases with same | ⟨v, edgeIn, edgeOut, bothWays, u, w, bridging, rfl⟩
  · rw [same] at member
    exact older e member e (.refl e)
  · obtain ⟨i, found⟩ := mem_edges_iff.mp member
    have crossing := bridging.toCrossing
    rcases crossing.edge_cases valid found with rfl | before | ⟨old, -, before, rfl⟩
    · refine .inr ⟨v, bridging.inRound, edgeIn, edgeOut, ?_, ?_, ?_⟩
      · exact Founded.composes_over crossing bridging.back
      · rw [crossing.source_eq]
        exact kept v bridging.inRound _ _ _ crossing.into (.inr rfl)
      · rw [crossing.target_eq]
        exact kept v bridging.inRound _ _ _ crossing.out (.inl rfl)
    · exact older e (mem_edges_iff.mpr ⟨i, before⟩) e (.refl e)
    · exact older old (mem_edges_iff.mpr ⟨i, before⟩) _ ⟨rfl, fun _ => rfl⟩

end Laid

/-- In a round, an edge that was not there before is put over a passage of a member, between vertices
that outlast the round. -/
theorem Contracts.exists_passage (contracts : Contracts number members g h) (valid : g.WellFormed)
    (member : e ∈ h.edges) (fresh : ¬ ∃ old ∈ g.edges, old.Ages e) :
    (e.source ∈ g.unprocessed ∧ e.source ∉ members) ∧
      (e.target ∈ g.unprocessed ∧ e.target ∉ members) ∧
      ∃ via ∈ members, h.Spans via e ∧ ∃ first second,
        g.Passage via first second e.source e.target ∧ e.weight = first.weight + second.weight := by
  have laid : g.Laid members h :=
    contracts.steps.keeps valid (fun before step kept => kept.step before step) (.start g members)
  have confined := contracts.steps.confined valid
  obtain ⟨i, found⟩ := mem_edges_iff.mp member
  obtain ⟨source, target⟩ := (confined i e found).resolve_left
    fun before => fresh ⟨e, mem_edges_iff.mpr ⟨i, before⟩, .refl e⟩
  obtain ⟨via, inRound, first, second, composes, into, out⟩ := (laid e member).resolve_left fresh
  refine ⟨source, target, via, inRound, ⟨first, second, composes, into, out⟩, first, second,
    ⟨⟨?_, ?_, composes.source_apart, composes.target_apart, composes.apart⟩, ?_, ?_⟩,
    composes.weight⟩
  · exact confined.live_before into (.inr fun outlasts => outlasts.2 inRound)
  · exact confined.live_before out (.inl fun outlasts => outlasts.2 inRound)
  · exact (valid.mem_unprocessed.mp source.1).2
  · exact (valid.mem_unprocessed.mp target.1).2

theorem Above.closes (above : g.Above low v) (closes : Closes number members g h)
    (known : v < g.vertexCount) (early : low < number) : h.Above low v := by
  intro round given
  rw [closes.round? v known] at given
  split at given
  · cases given
    exact early
  · exact above round given

/-- A member is below the vertices that outlast its round. -/
theorem above_of_mem_unprocessed (valid : g.WellFormed) (closes : Closes number members g h)
    (open_ : v ∈ g.unprocessed) (stays : v ∉ members) : h.Above low v := by
  have known := (valid.mem_unprocessed.mp open_).1
  intro round given
  rw [closes.round? v known, if_neg stays, (valid.round?_eq_none_iff known).mpr open_] at given
  cases given

/-- What stands over a contracted vertex does so after the next round. -/
theorem Spans.contracts (spans : g.Spans via e) (valid : g.WellFormed)
    (contracts : Contracts number members g h) (closed : via ∉ g.unprocessed) (aged : e.Ages e') :
    h.Spans via e' := by
  have later : via ∉ h.unprocessed := fun open_ =>
    closed ((contracts.closes.mem_unprocessed valid).mp open_).1
  have grows := (contracts.steps.preserves valid (fun _ => True) fun _ _ => trivial).grows
  refine spans.ages aged fun edge u w alive ends => ?_
  refine (contracts.confined valid).live_of_outside grows alive (ends.imp ?_ ?_)
  · rintro rfl
    exact later
  · rintro rfl
    exact later

/-- What a shortcut rested on before a round, it rests on after it. -/
theorem Carries.contracts (carries : g.Carries number e) (valid : g.WellFormed)
    (contracts : Contracts number members g h) (aged : e.Ages e') : h.Carries (number + 1) e' := by
  obtain ⟨via, low, spans, given, early, source, target⟩ := carries
  obtain ⟨known, sourceKnown, targetKnown⟩ := spans.mem_vertices valid
  have closed : via ∉ g.unprocessed := by
    rw [← valid.round?_eq_none_iff known, given]
    exact Option.some_ne_none low
  have outside : via ∉ members := fun inRound =>
    closed (contracts.closes.unprocessed.mem_iff.mpr (List.mem_append_left _ inRound))
  refine ⟨via, low, spans.contracts valid contracts closed aged, ?_, by omega, ?_, ?_⟩
  · rw [contracts.closes.round? via known, if_neg outside, given]
  · rw [aged.source]
    exact source.closes contracts.closes sourceKnown early
  · rw [aged.target]
    exact target.closes contracts.closes targetKnown early

namespace Rests

theorem of_plain (plain : g.Plain) : g.Rests 0 :=
  fun _ member short => (plain.not_isShortcut member short).elim

theorem of_tuned (rests : g.Rests number) (tuned : g.Tuned h) : h.Rests number := by
  unfold Rests Carries Spans Above
  rw [tuned.edges, tuned.live]
  simp only [tuned.round?]
  exact rests

/-- A round lays its shortcuts over its members, and leaves what older shortcuts rest on. -/
theorem contracts (rests : g.Rests number) (valid : g.WellFormed)
    (contracts : Contracts number members g h) : h.Rests (number + 1) := by
  intro e member short
  by_cases before : ∃ old ∈ g.edges, old.Ages e
  · obtain ⟨old, there, aged⟩ := before
    exact (rests old there (aged.isShortcut ▸ short)).contracts valid contracts aged
  · obtain ⟨source, target, via, inRound, spans, -⟩ := contracts.exists_passage valid member before
    have known := (spans.mem_vertices (contracts.wellFormed valid)).1
    rw [contracts.closes.vertexCount] at known
    refine ⟨via, number, spans, ?_, Nat.lt_succ_self number, ?_, ?_⟩
    · rw [contracts.closes.round? via known, if_pos inRound]
    · exact above_of_mem_unprocessed valid contracts.closes source.1 source.2
    · exact above_of_mem_unprocessed valid contracts.closes target.1 target.2

theorem run (rests : g.Rests number) (valid : g.WellFormed) (run : Run number g sets h) :
    h.Rests (number + sets.length) := by
  induction run with
  | done tuned => exact rests.of_tuned tuned
  | @round number _ _ _ _ _ rest tuned _ contracts _ ih =>
    have before := tuned.wellFormed valid
    have later := ih ((rests.of_tuned tuned).contracts before contracts)
      (contracts.wellFormed before)
    rw [List.length_cons, Nat.add_comm rest.length, ← Nat.add_assoc]
    exact later

end Rests

/-- Once no vertex is left, what is above a round has been contracted after it. -/
theorem Above.below (above : h.Above low v) (valid : h.WellFormed) (complete : h.unprocessed = [])
    (known : v < h.vertexCount) (given : h.round? via = some low) : h.Below via v := by
  cases high : h.round? v with
  | none =>
    have open_ := (valid.round?_eq_none_iff known).mp high
    rw [complete] at open_
    cases open_
  | some round => exact ⟨low, round, given, high, above round high⟩

end Graph

namespace Hierarchy

variable {s : Settings} {g : Graph} {h : Hierarchy} {extract : Extract}

/-- Every shortcut of a hierarchy, live or removed, stands for two live edges with smaller ids that
are driven one after the other over a vertex that was contracted before both of its ends. -/
theorem shortcut_rests (extracted : Graph.ofExtract extract = .ok g) (built : BuiltFrom s g h)
    {e : Edge} (member : e ∈ h.graph.edges) {a b : Nat} (pair : e.pair = some (a, b)) :
    (a < e.id ∧ b < e.id) ∧ ∃ first second via,
      (h.graph.edges[a]? = some first ∧ first.removed = false ∧ first.Drives e.source via) ∧
      (h.graph.edges[b]? = some second ∧ second.removed = false ∧ second.Drives via e.target) ∧
      (via ≠ e.source ∧ h.graph.Below via e.source) ∧
      (via ≠ e.target ∧ h.graph.Below via e.target) ∧
      e.source ≠ e.target ∧ e.weight = first.weight + second.weight ∧
      e.count = min (first.count + second.count) 0xffffffff ∧
      (e.bidirectional = true → first.bidirectional = true ∧ second.bidirectional = true) := by
  have valid := (Graph.reachable_ofExtract extracted).wellFormed
  obtain ⟨rounds, run, complete⟩ := built.run valid
  have after := run.wellFormed valid
  have short : e.isShortcut = true := by rw [Edge.isShortcut, pair]; rfl
  obtain ⟨via, low, spans, given, -, source, target⟩ :=
    (Graph.Rests.of_plain (Graph.plain_ofExtract extracted)).run valid run e member short
  obtain ⟨-, sourceKnown, targetKnown⟩ := spans.mem_vertices after
  obtain ⟨first, second, composes, into, out⟩ := spans
  have ids := composes.pair
  rw [pair] at ids
  cases ids
  refine ⟨after.pair_lt e member _ pair, first, second, via, ⟨after.find_edge into.1, into.2⟩,
    ⟨after.find_edge out.1, out.2⟩, ⟨composes.source_apart.symm, ?_⟩,
    ⟨composes.target_apart.symm, ?_⟩, composes.apart, composes.weight, composes.count,
    composes.both⟩
  · exact source.below after complete sourceKnown given
  · exact target.below after complete targetKnown given

/-- Two ways around a square, and witnesses of one road only: the shortcut over the longer way is
removed later on, and the two roads that it stands for are live to the end. -/
theorem shortcut_rests_square : ∃ g h, Graph.ofExtract ⟨List.replicate 4 ⟨0, 0⟩,
      [⟨0, 1, 5, true⟩, ⟨1, 2, 5, true⟩, ⟨0, 3, 1, true⟩, ⟨3, 2, 1, true⟩]⟩ = .ok g ∧
    BuiltFrom { searchSpaceHopLimit := 1 } g h ∧
    h.graph.edges[4]? = some ⟨4, 0, 2, 10, 2, true, some (0, 1), true⟩ ∧
    ∃ first second via, h.graph.edges[0]? = some first ∧ first.removed = false ∧
      h.graph.edges[1]? = some second ∧ second.removed = false ∧
      first.Drives 0 via ∧ second.Drives via 2 ∧ h.graph.Below via 0 ∧ h.graph.Below via 2 := by
  have computed : (do
      let g ← Graph.ofExtract ⟨List.replicate 4 ⟨0, 0⟩,
        [⟨0, 1, 5, true⟩, ⟨1, 2, 5, true⟩, ⟨0, 3, 1, true⟩, ⟨3, 2, 1, true⟩]⟩
      let h ← buildInOrder { searchSpaceHopLimit := 1 } [1, 3, 0, 2] g
      return h.graph.edges[4]?).toOption =
      some (some ⟨4, 0, 2, 10, 2, true, some (0, 1), true⟩) := by
    decide +kernel
  obtain ⟨g, extracted, computed⟩ := bind_eq_ok.mp (toOption_eq_some.mp computed)
  obtain ⟨h, built, computed⟩ := bind_eq_ok.mp computed
  have removed := pure_eq_ok.mp computed
  have whole : BuiltFrom { searchSpaceHopLimit := 1 } g h := .inr ⟨[1, 3, 0, 2], built⟩
  have member := Graph.mem_edges_iff.mpr ⟨4, removed⟩
  obtain ⟨-, first, second, via, ⟨left, alive, into⟩, ⟨right, live, out⟩, ⟨-, source⟩,
    ⟨-, target⟩, -⟩ := shortcut_rests extracted whole member rfl
  exact ⟨g, h, extracted, whole, removed, first, second, via, left, alive, right, live, into, out,
    source, target⟩

end Hierarchy

end RoadHierarchy
