import RoadHierarchy.Proofs.Queue.Ties

/-! # Histories of keyed queues

To its callers, a keyed queue is a map from keys to priorities. A push is answered with yes and sets
the priority when the map has none for the key or a higher one; a pop takes out any key of lowest
priority, and finds nothing only in the empty map. Entries from earlier times do not show, not even
when they agree again with the present priority of their key. Whichever entry of lowest priority
comes up at each pop, the histories of a new queue are those of the empty map, no more and no fewer.
-/

namespace RoadHierarchy

/-- What happens leads from one state to the next. -/
inductive History {σ ε : Type} (step : σ → ε → σ → Prop) : σ → List ε → σ → Prop
  | nil (state : σ) : History step state [] state
  | cons {first second last : σ} {event : ε} {later : List ε} :
      step first event second → History step second later last →
      History step first (event :: later) last

/-- Where related states can do the same, they have the same histories. -/
theorem History.transfer {σ τ ε : Type} {step : σ → ε → σ → Prop} {other : τ → ε → τ → Prop}
    {s last : σ} {t : τ} {log : List ε} (history : History step s log last)
    (related : σ → τ → Prop)
    (matched : ∀ s next t event, related s t → step s event next →
      ∃ after, other t event after ∧ related next after)
    (same : related s t) : ∃ final, History other t log final ∧ related last final := by
  induction history generalizing t with
  | nil => exact ⟨t, .nil t, same⟩
  | cons first _ ih =>
    obtain ⟨after, moved, kept⟩ := matched _ _ _ _ same first
    obtain ⟨final, rest, reached⟩ := ih kept
    exact ⟨final, .cons moved rest, reached⟩

namespace KeyedQueue

variable {κ π : Type}

/-- What a queue can be asked. -/
inductive Call (κ π : Type) where
  | push (key : κ) (priority : π)
  | pop

/-- A call together with its answer. -/
inductive Event (κ π : Type) where
  | pushed (key : κ) (priority : π) (changed : Bool)
  | popped (answer : Option (κ × π))
  deriving DecidableEq

/-- What was asked. -/
def Event.call : Event κ π → Call κ π
  | pushed key priority _ => .push key priority
  | popped _ => .pop

/-- The map with another value for one key. -/
def update [BEq κ] (m : κ → Option π) (key : κ) (value : Option π) : κ → Option π :=
  fun other => if other == key then value else m other

/-- A map from keys to priorities answers a call and becomes another map. -/
inductive Allows [BEq κ] [LE π] [LT π] (m : κ → Option π) : Event κ π → (κ → Option π) → Prop
  | enters {key : κ} {priority : π} : m key = none →
      Allows m (.pushed key priority true) (update m key (some priority))
  | lowers {key : κ} {priority present : π} : m key = some present → priority < present →
      Allows m (.pushed key priority true) (update m key (some priority))
  | stays {key : κ} {priority present : π} : m key = some present → present ≤ priority →
      Allows m (.pushed key priority false) m
  | exhausted : (∀ key, m key = none) → Allows m (.popped none) m
  | takes {key : κ} {priority : π} : m key = some priority →
      (∀ other present, m other = some present → priority ≤ present) →
      Allows m (.popped (some (key, priority))) (update m key none)

/-- A queue may answer a call in this way and become another queue. -/
inductive Answers [BEq κ] [LinearOrder π] (q : KeyedQueue κ π) :
    Event κ π → KeyedQueue κ π → Prop
  | push {key : κ} {priority : π} {changed : Bool} {next : KeyedQueue κ π} :
      q.pushOrDecrease key priority = (changed, next) →
      Answers q (.pushed key priority changed) next
  | pop {answer : Option (κ × π)} {next : KeyedQueue κ π} : q.MayPop answer next →
      Answers q (.popped answer) next

section Serving

variable [BEq κ] [BEq π] [LT π] [DecidableLT π]

/-- The answer to a call, and the queue that is left. -/
def serve (q : KeyedQueue κ π) : Call κ π → Event κ π × KeyedQueue κ π
  | .push key priority =>
      let (changed, next) := q.pushOrDecrease key priority
      (.pushed key priority changed, next)
  | .pop =>
      let (answer, next) := q.pop
      (.popped answer, next)

/-- The answers to a sequence of calls, and the queue that is left. -/
def serveAll (q : KeyedQueue κ π) : List (Call κ π) → List (Event κ π) × KeyedQueue κ π
  | [] => ([], q)
  | call :: rest =>
      let (event, next) := q.serve call
      let (later, last) := serveAll next rest
      (event :: later, last)

end Serving

/-- The map holds the present priority of every key, and each has its entry. -/
structure Represents [BEq κ] (q : KeyedQueue κ π) (m : κ → Option π) : Prop where
  priorities : q.priority? = m
  backed : q.Backed

variable [DecidableEq κ] [LinearOrder π] {q next : KeyedQueue κ π} {m after : κ → Option π}
  {event : Event κ π} {key : κ} {priority : π}

/-- The answer says what becomes of the map. -/
theorem Allows.unique {other : κ → Option π} (allows : Allows m event after)
    (allowed : Allows m event other) : other = after := by
  cases allows <;> cases allowed <;> rfl

omit [LinearOrder π] in
theorem represents_empty : (empty : KeyedQueue κ π).Represents fun _ => none :=
  ⟨rfl, fun _ _ present => by cases present⟩

omit [DecidableEq κ] in
/-- Entries can be put in order. -/
theorem exists_sorted (entries : List (κ × π)) :
    ∃ ordered : List (κ × π), ordered.Perm entries ∧ ordered.Pairwise fun a b => a.2 ≤ b.2 := by
  have ascending : (entries.mergeSort (·.2 ≤ ·.2)).Pairwise
      fun a b => decide (a.2 ≤ b.2) = true := by
    apply List.pairwise_mergeSort
    · simpa using fun _ _ _ _ _ _ => le_trans
    · simpa using fun _ _ _ _ => le_total ..
  exact ⟨_, List.mergeSort_perm .., by simpa using ascending⟩

/-- In sorted entries, every key of lowest priority may be the one that is found. -/
theorem Serves.exists_found {queued entries : List (κ × π)}
    (sorted : entries.Pairwise fun a b => a.2 ≤ b.2) (member : (key, priority) ∈ entries)
    (present : queued.lookup key = some priority)
    (lowest : ∀ other ∈ entries, queued.lookup other.1 = some other.2 → priority ≤ other.2) :
    ∃ rest, Serves queued entries (some (key, priority)) rest := by
  induction entries with
  | nil => cases member
  | cons head rest ih =>
    obtain ⟨first, ordered⟩ := List.pairwise_cons.mp sorted
    by_cases counts : queued.lookup head.1 = some head.2
    · -- Nothing before the key is stale, so that its entry may come up at once.
      have low := lowest head (List.mem_cons_self ..) counts
      have least : ∀ other ∈ head :: rest, priority ≤ other.2 :=
        List.forall_mem_cons.mpr ⟨low, fun other later => low.trans (first other later)⟩
      obtain ⟨before, behind, split⟩ := List.append_of_mem member
      have up : (head :: rest).Perm ((key, priority) :: (before ++ behind)) :=
        split ▸ List.perm_middle
      exact ⟨_, .found ⟨up, fun other left =>
        least other (up.mem_iff.mpr (List.mem_cons_of_mem _ left))⟩ present⟩
    · have inside : (key, priority) ∈ rest := by
        rcases List.mem_cons.mp member with rfl | inside
        · exact (counts present).elim
        · exact inside
      obtain ⟨left, serves⟩ :=
        ih ordered inside fun other later => lowest other (List.mem_cons_of_mem _ later)
      exact ⟨left, .stale ⟨.refl _, first⟩ counts serves⟩

/-- Every key of lowest priority may be popped. -/
theorem Backed.exists_mayPop (backed : q.Backed) (present : q.priority? key = some priority)
    (lowest : ∀ other p, q.priority? other = some p → priority ≤ p) :
    ∃ next, q.MayPop (some (key, priority)) next := by
  obtain ⟨ordered, same, sorted⟩ := exists_sorted q.entries
  obtain ⟨rest, serves⟩ := Serves.exists_found sorted
    (same.mem_iff.mpr (backed key priority present)) present fun other _ => lowest other.1 other.2
  exact ⟨⟨rest.toArray, _⟩, serves.perm same, rfl⟩

namespace Represents

theorem assign (backed : q.Backed) (key : κ) (priority : π) :
    (q.assign key priority).Represents (update q.priority? key (some priority)) :=
  ⟨funext fun other => q.priority?_assign key other priority, backed.assign key priority⟩

/-- What a queue answers, its map allows. -/
theorem allows (represents : q.Represents m) (answers : q.Answers event next) :
    ∃ after, Allows m event after ∧ next.Represents after := by
  obtain ⟨rfl, backed⟩ := represents
  cases answers with
  | @push key priority _ _ pushed =>
    rcases q.pushOrDecrease_cases key priority with ⟨present, low, known, same⟩ | ⟨high, changed⟩
    · cases pushed.symm.trans same
      exact ⟨_, .stays known low, rfl, backed⟩
    · cases pushed.symm.trans changed
      refine ⟨_, ?_, .assign backed key priority⟩
      cases known : q.priority? key with
      | none => exact .enters known
      | some present => exact .lowers known (high present known)
  | @pop answer _ pops =>
    cases answer with
    | none =>
      have drained := pops.priority?_eq_none backed
      have same : next.priority? = q.priority? := by
        unfold priority?
        rw [pops.queued]
        rfl
      refine ⟨_, .exhausted drained, same, fun key priority known => ?_⟩
      rw [same, drained key] at known
      cases known
    | some entry =>
      obtain ⟨present, left⟩ := pops.priority?_eq
      exact ⟨_, .takes present fun _ _ known => pops.le_priority backed known, funext left,
        pops.backed backed⟩

/-- What a map allows, the queue may answer. -/
theorem exists_answers (represents : q.Represents m) (allows : Allows m event after) :
    ∃ next, q.Answers event next := by
  obtain ⟨rfl, backed⟩ := represents
  cases allows with
  | @enters key priority absent =>
    rcases q.pushOrDecrease_cases key priority with ⟨present, -, known, -⟩ | ⟨-, changed⟩
    · cases absent.symm.trans known
    · exact ⟨_, .push changed⟩
  | @lowers key priority _ known lower =>
    rcases q.pushOrDecrease_cases key priority with ⟨present, low, found, -⟩ | ⟨-, changed⟩
    · cases known.symm.trans found
      exact (low.not_gt lower).elim
    · exact ⟨_, .push changed⟩
  | @stays key priority _ known low =>
    rcases q.pushOrDecrease_cases key priority with ⟨-, -, -, same⟩ | ⟨high, -⟩
    · exact ⟨_, .push same⟩
    · exact (low.not_gt (high _ known)).elim
  | exhausted none =>
    obtain ⟨answer, next, pops⟩ := exists_mayPop q
    cases answer with
    | none => exact ⟨next, .pop pops⟩
    | some entry => cases (none entry.1).symm.trans pops.priority?_eq.1
  | takes known lowest =>
    obtain ⟨next, pops⟩ := backed.exists_mayPop known lowest
    exact ⟨next, .pop pops⟩

theorem answers (represents : q.Represents m) (allows : Allows m event after) :
    ∃ next, q.Answers event next ∧ next.Represents after := by
  obtain ⟨next, answers⟩ := represents.exists_answers allows
  obtain ⟨other, allowed, kept⟩ := represents.allows answers
  exact ⟨next, answers, allows.unique allowed ▸ kept⟩

end Represents

/-- The queue itself answers as it may, and its heap stays in order. -/
theorem Ordered.serve (ordered : q.Ordered) (call : Call κ π) :
    (q.serve call).1.call = call ∧ q.Answers (q.serve call).1 (q.serve call).2 ∧
      (q.serve call).2.Ordered := by
  cases call with
  | push key priority =>
    refine ⟨rfl, .push rfl, ?_⟩
    rcases q.pushOrDecrease_cases key priority with ⟨-, -, -, same⟩ | ⟨-, changed⟩
    · simpa only [KeyedQueue.serve, same] using ordered
    · simpa only [KeyedQueue.serve, changed] using ordered.assign key priority
  | pop => exact ⟨rfl, .pop ordered.mayPop.1, ordered.mayPop.2⟩

theorem Ordered.serveAll (ordered : q.Ordered) (calls : List (Call κ π)) :
    (q.serveAll calls).1.map Event.call = calls ∧
      History Answers q (q.serveAll calls).1 (q.serveAll calls).2 := by
  induction calls generalizing q with
  | nil => exact ⟨rfl, .nil q⟩
  | cons call rest ih =>
    obtain ⟨asked, answers, still⟩ := ordered.serve call
    obtain ⟨others, later⟩ := ih still
    exact ⟨congrArg₂ List.cons asked others, .cons answers later⟩

/-- A new queue has the histories of the empty map, whichever entries of lowest priority come up, and
then holds the priorities of that map. Every sequence of calls is answered by one of them. -/
theorem history_iff : (∀ (log : List (Event κ π)) (m : κ → Option π),
      (∃ q, History Answers empty log q ∧ q.priority? = m) ↔
        History Allows (fun _ => none) log m) ∧
    ∀ calls : List (Call κ π), ((empty : KeyedQueue κ π).serveAll calls).1.map Event.call = calls ∧
      History Answers (empty : KeyedQueue κ π) (empty.serveAll calls).1 (empty.serveAll calls).2 := by
  refine ⟨fun log m => ⟨?_, fun history => ?_⟩, ?_⟩
  · rintro ⟨q, history, rfl⟩
    obtain ⟨m, allowed, represents⟩ := history.transfer Represents
      (fun _ _ _ _ => Represents.allows) represents_empty
    exact represents.priorities ▸ allowed
  · obtain ⟨q, answered, represents⟩ := history.transfer (fun m q => Represents q m)
      (fun _ _ _ _ => Represents.answers) represents_empty
    exact ⟨q, answered, represents.priorities⟩
  · exact Ordered.serveAll ordered_empty

/-- The entry of the first push is stale when the key is pushed again, with the priority that it
had at first. There are two such entries then, and only one of them counts. -/
example : ((empty : KeyedQueue Nat Nat).serveAll
    [.push 7 5, .push 7 3, .pop, .push 7 5, .pop, .pop]).1 =
    [.pushed 7 5 true, .pushed 7 3 true, .popped (some (7, 3)), .pushed 7 5 true,
      .popped (some (7, 5)), .popped none] := by decide +kernel

end KeyedQueue

end RoadHierarchy
