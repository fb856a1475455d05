import Mathlib.Order.Lattice
import RoadHierarchy.Proofs.Queue.Heap
import RoadHierarchy.Proofs.Queue.Keyed

/-! # Keyed queues with ties

Which of several entries of lowest priority a queue takes depends on how its heap has been built up,
and a search can give another answer when another one is taken. The order of priorities says nothing
about that. So a pop is described here as a relation as well, in which any entry of lowest priority
may come up: what holds for all of these pops holds for the one that is run, since a heap in order
makes one of them.
-/

namespace RoadHierarchy

namespace KeyedQueue

variable {κ π : Type} [BEq κ] [LinearOrder π]

/-- An entry of lowest priority comes up, and the others are left. -/
def ComesUp (entry : κ × π) (entries rest : List (κ × π)) : Prop :=
  entries.Perm (entry :: rest) ∧ ∀ other ∈ rest, entry.2 ≤ other.2

/-- Entries come up until one of them counts, or none is left. -/
inductive Serves (queued : List (κ × π)) :
    List (κ × π) → Option (κ × π) → List (κ × π) → Prop
  | exhausted : Serves queued [] none []
  | stale {entry : κ × π} {entries rest last : List (κ × π)} {answer : Option (κ × π)} :
      ComesUp entry entries rest → queued.lookup entry.1 ≠ some entry.2 →
      Serves queued rest answer last → Serves queued entries answer last
  | found {entry : κ × π} {entries rest : List (κ × π)} :
      ComesUp entry entries rest → queued.lookup entry.1 = some entry.2 →
      Serves queued entries (some entry) rest

/-- A pop may give this answer and leave this queue, with some choice among entries of equal
priority. -/
structure MayPop (q : KeyedQueue κ π) (answer : Option (κ × π)) (next : KeyedQueue κ π) : Prop where
  serves : Serves q.queued q.entries answer next.entries
  queued : next.queued = answer.elim q.queued fun entry => q.queued.filter (!·.1 == entry.1)

/-- Every present priority has its entry. -/
def Backed (q : KeyedQueue κ π) : Prop :=
  ∀ key priority, q.priority? key = some priority → (key, priority) ∈ q.entries

/-- No entry has a lower priority than the one above it. -/
def Ordered (q : KeyedQueue κ π) : Prop :=
  Heap.Ordered (fun a b => a.2 ≤ b.2) q.heap.toVector

omit [BEq κ] in
theorem ordered_empty : (empty : KeyedQueue κ π).Ordered :=
  fun j => j.elim0

variable {q next : KeyedQueue κ π} {entry : κ × π} {queued entries rest : List (κ × π)}
  {answer : Option (κ × π)}

section Push

/-- A push that changes nothing finds the key at a priority that is as low. Any other one gives the
key its new priority. -/
theorem pushOrDecrease_cases (q : KeyedQueue κ π) (key : κ) (priority : π) :
    (∃ present ≤ priority, q.priority? key = some present ∧
        q.pushOrDecrease key priority = (false, q)) ∨
      (∀ present, q.priority? key = some present → priority < present) ∧
        q.pushOrDecrease key priority = (true, q.assign key priority) := by
  unfold pushOrDecrease
  cases q.priority? key with
  | none => simp
  | some present =>
    rcases lt_or_ge priority present with lower | higher
    · simp [lower]
    · simp [higher]

variable [LawfulBEq κ]

theorem Backed.assign (backed : q.Backed) (key : κ) (priority : π) :
    (q.assign key priority).Backed := by
  intro other present known
  rw [priority?_assign] at known
  have entries : (q.assign key priority).entries.Perm ((key, priority) :: q.entries) :=
    Heap.perm_push ..
  rw [entries.mem_iff, List.mem_cons]
  split at known
  · next same =>
    obtain rfl := eq_of_beq same
    obtain rfl := Option.some.inj known
    exact .inl rfl
  · exact .inr (backed other present known)

omit [BEq κ] [LawfulBEq κ] in
/-- Entries are due in the order of their priorities. -/
theorem decides_due : Agenda.Decides (due : κ × π → κ × π → Bool) fun a b => a.2 ≤ b.2 where
  early a b early := by simpa [due] using early
  late a b late := le_of_lt (by simpa [due] using late)
  chain _ _ _ := le_trans

omit [LawfulBEq κ] in
theorem Ordered.assign (ordered : q.Ordered) (key : κ) (priority : π) :
    (q.assign key priority).Ordered :=
  Heap.Ordered.push decides_due ordered (key, priority)

end Push

namespace Serves

/-- When the entries run out, none of them counts. -/
theorem lookup_ne (serves : Serves queued entries none rest) :
    ∀ entry ∈ entries, queued.lookup entry.1 ≠ some entry.2 := by
  generalize outcome : (none : Option (κ × π)) = answer at serves
  induction serves with
  | exhausted => simp
  | stale first outdated _ ih =>
    intro entry member
    rcases List.mem_cons.mp (first.1.mem_iff.mp member) with rfl | later
    · exact outdated
    · exact ih outcome entry later
  | found => cases outcome

/-- What is taken counts, and nothing that counts has a lower priority. What else counts is left. -/
theorem lowest (serves : Serves queued entries (some entry) rest) :
    queued.lookup entry.1 = some entry.2 ∧
      ∀ other ∈ entries, queued.lookup other.1 = some other.2 →
        entry.2 ≤ other.2 ∧ (other.1 ≠ entry.1 → other ∈ rest) := by
  generalize outcome : some entry = answer at serves
  induction serves with
  | exhausted => cases outcome
  | stale first outdated _ ih =>
    obtain ⟨present, others⟩ := ih outcome
    refine ⟨present, fun other member counts => ?_⟩
    rcases List.mem_cons.mp (first.1.mem_iff.mp member) with rfl | later
    · exact (outdated counts).elim
    · exact others other later counts
  | found first present =>
    obtain rfl := Option.some.inj outcome
    refine ⟨present, fun other member counts => ?_⟩
    rcases List.mem_cons.mp (first.1.mem_iff.mp member) with rfl | later
    · exact ⟨le_rfl, fun apart => (apart rfl).elim⟩
    · exact ⟨first.2 other later, fun _ => later⟩

theorem perm {more : List (κ × π)} (serves : Serves queued entries answer rest)
    (same : entries.Perm more) : Serves queued more answer rest := by
  cases serves with
  | exhausted =>
    obtain rfl := same.nil_eq
    exact .exhausted
  | stale first outdated later => exact .stale ⟨same.symm.trans first.1, first.2⟩ outdated later
  | found first present => exact .found ⟨same.symm.trans first.1, first.2⟩ present

/-- What a heap in order gives out comes up, and leaves a heap in order. -/
theorem of_ordered [BEq π] [LawfulBEq π] (queued : List (κ × π)) {heap : Array (κ × π)}
    (ordered : Heap.Ordered (fun a b => a.2 ≤ b.2) heap.toVector) :
    match firstPresent queued heap with
    | none => Serves queued heap.toList none []
    | some (entry, rest) =>
        Serves queued heap.toList (some entry) rest.toList ∧
          Heap.Ordered (fun a b => a.2 ≤ b.2) rest.toVector := by
  fun_induction firstPresent queued heap with
  | case1 heap drained =>
    obtain rfl := Heap.pop?_eq_none drained
    exact .exhausted
  | case2 heap entry rest taken present =>
    obtain ⟨first, still⟩ := ordered.pop? decides_due taken
    exact ⟨.found ⟨Heap.perm_pop? taken, first⟩ (beq_iff_eq.mp present), still⟩
  | case3 heap entry rest taken outdated ih =>
    obtain ⟨first, still⟩ := ordered.pop? decides_due taken
    have up : ComesUp entry heap.toList rest.toList := ⟨Heap.perm_pop? taken, first⟩
    have stale := mt beq_iff_eq.mpr outdated
    have later := ih still
    split at later
    · exact .stale up stale later
    · exact ⟨.stale up stale later.1, later.2⟩

end Serves

section Pop

/-- The queue answers a pop in one of the possible ways. -/
theorem Ordered.mayPop [BEq π] [LawfulBEq π] (ordered : q.Ordered) :
    q.MayPop q.pop.1 q.pop.2 ∧ q.pop.2.Ordered := by
  have serves := Serves.of_ordered q.queued ordered
  unfold pop
  cases found : firstPresent q.queued q.heap with
  | none =>
    rw [found] at serves
    exact ⟨⟨serves, rfl⟩, fun j => j.elim0⟩
  | some taken =>
    rw [found] at serves
    exact ⟨⟨serves.1, rfl⟩, serves.2⟩

/-- There is an answer to every pop. -/
theorem exists_mayPop (q : KeyedQueue κ π) : ∃ answer next, q.MayPop answer next := by
  have ordered : (⟨Heap.ofList due q.entries, q.queued⟩ : KeyedQueue κ π).Ordered :=
    Heap.ordered_ofList decides_due q.entries
  obtain ⟨⟨serves, queued⟩, -⟩ := ordered.mayPop
  exact ⟨_, _, serves.perm (Heap.perm_ofList q.entries), queued⟩

theorem MayPop.priority?_eq_none (pops : q.MayPop none next) (backed : q.Backed) (key : κ) :
    q.priority? key = none := by
  cases known : q.priority? key with
  | none => rfl
  | some priority =>
    exact (pops.serves.lookup_ne _ (backed key priority known) known).elim

variable [LawfulBEq κ]

/-- What is popped carried its present priority, and no present priority is lower. No other key is
affected. -/
theorem MayPop.priority?_eq (pops : q.MayPop (some entry) next) :
    q.priority? entry.1 = some entry.2 ∧
      ∀ other, next.priority? other = if other == entry.1 then none else q.priority? other := by
  refine ⟨pops.serves.lowest.1, fun other => ?_⟩
  rw [priority?, pops.queued]
  exact lookup_filter_ne entry.1 other q.queued

omit [LawfulBEq κ] in
theorem MayPop.le_priority (pops : q.MayPop (some entry) next) (backed : q.Backed) {key : κ}
    {priority : π} (known : q.priority? key = some priority) : entry.2 ≤ priority :=
  (pops.serves.lowest.2 _ (backed key priority known) known).1

theorem MayPop.backed (pops : q.MayPop (some entry) next) (backed : q.Backed) : next.Backed := by
  intro key priority known
  rw [pops.priority?_eq.2] at known
  split at known
  · cases known
  · next apart =>
    exact (pops.serves.lowest.2 _ (backed key priority known) known).2 (by simpa using apart)

end Pop

end KeyedQueue

end RoadHierarchy
