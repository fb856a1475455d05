import Mathlib.Data.List.Flatten
import Mathlib.Tactic.ByContra
import RoadHierarchy.Proofs.Contraction.Dispatch

/-! # What a crew is handed

The workers of a crew move one cursor. What they have been handed when all have stopped depends on
how many requests there were, but not on who asked when. As long as the cursor does not come round
to vertices that it has passed, they have been handed all vertices of the round, each as often as it
is listed. If it does, they have been handed some vertex once more, or could not go on.
-/

namespace RoadHierarchy

/-- The number of batches into which this many vertices are divided. -/
def batchCount (count size : Nat) : Nat := (count + size - 1) / size

/-- The cursor over this many vertices does not come round to its start, not even when every worker
has asked in vain. -/
def Settings.CursorFits (s : Settings) (count : Nat) : Prop :=
  (batchCount count s.batchSize + s.numThreads) * s.batchSize ≤ 0x10000000000000000

instance (s : Settings) (count : Nat) : Decidable (s.CursorFits count) :=
  inferInstanceAs (Decidable (_ ≤ _))

/-- Where the cursor is after a number of requests. -/
def cursorAt (size requests : Nat) : Nat := requests * size % 0x10000000000000000

/-- After so many requests, the next one is given the next batch, whose end is a 64-bit number, or
nothing when no vertex is left. -/
def Answered (count size request : Nat) : Prop :=
  if request * size < count then request * size + size < 0x10000000000000000
  else count ≤ cursorAt size request

instance (count size request : Nat) : Decidable (Answered count size request) :=
  inferInstanceAs (Decidable (ite ..))

/-- The cursor may come round, but not to one of this many vertices before every worker has
stopped. -/
def Settings.CursorClears (s : Settings) (count : Nat) : Prop :=
  ∀ request < batchCount count s.batchSize + s.numThreads, Answered count s.batchSize request

instance (s : Settings) (count : Nat) : Decidable (s.CursorClears count) :=
  inferInstanceAs (Decidable (∀ request < _, _))

theorem lt_batchCount_iff {count size request : Nat} (positive : 0 < size) :
    request < batchCount count size ↔ request * size < count := by
  unfold batchCount
  rw [Nat.lt_iff_add_one_le, Nat.le_div_iff_mul_le positive, Nat.add_one_mul]
  omega

theorem batchCount_mono {few many : Nat} (size : Nat) (fewer : few ≤ many) :
    batchCount few size ≤ batchCount many size := by
  unfold batchCount
  apply Nat.div_le_div_right
  omega

/-- A simulation of one of the vertices fails in this way. -/
def FailsAmong (simulate : Nat → Except Failure Simulation) (vertices : List Nat)
    (failure : Failure) : Prop :=
  ∃ v ∈ vertices, simulate v = .error failure

/-- How many of a number of requests find the cursor beyond the vertices. -/
def misses (count size requests : Nat) : Nat :=
  (List.range requests).countP fun request => count ≤ cursorAt size request

/-- A worker that is still running can come upon a batch whose end is not a 64-bit number. -/
def Overruns (count size workers : Nat) (failure : Failure) : Prop :=
  failure = .overflow ∧ ∃ request, misses count size request < workers ∧
    cursorAt size request < count ∧ 0x10000000000000000 ≤ cursorAt size request + size

/-- What a number of requests are given, one after the other. -/
def handedOut (vertices : List Nat) (size requests : Nat) : List Nat :=
  (List.range requests).flatMap fun request => (vertices.drop (cursorAt size request)).take size

/-- What has come of a number of requests: the vertices that have been staged, and the number of
workers that have stopped. -/
structure Handed (vertices : List Nat) (size workers requests stopped : Nat) (staged : List Nat)
    (source : BatchSource) : Prop where
  vertices_eq : source.vertices = vertices
  size_eq : source.size = size
  cursor_eq : source.cursor = cursorAt size requests
  staged_perm : staged.Perm (handedOut vertices size requests)
  stopped_eq : stopped = misses vertices.length size requests
  /-- Each request came from a worker that was running, and what it was given was a batch. -/
  asked : ∀ request < requests, misses vertices.length size request < workers ∧
    (cursorAt size request < vertices.length →
      cursorAt size request + size < 0x10000000000000000)

variable {vertices staged : List Nat} {count size requests stopped workers : Nat}
  {source : BatchSource} {simulate : Nat → Except Failure Simulation}

section Cursor

theorem misses_succ (count size requests : Nat) : misses count size (requests + 1) =
    misses count size requests + if count ≤ cursorAt size requests then 1 else 0 := by
  simp [misses, List.range_succ, List.countP_append, List.countP_cons]

theorem misses_mono (count size : Nat) {few many : Nat} (fewer : few ≤ many) :
    misses count size few ≤ misses count size many :=
  (List.range_sublist.mpr fewer).countP_le

theorem handedOut_succ (vertices : List Nat) (size requests : Nat) :
    handedOut vertices size (requests + 1) =
      handedOut vertices size requests ++ (vertices.drop (cursorAt size requests)).take size := by
  simp [handedOut, List.range_succ]

theorem mem_of_mem_handedOut {v : Nat} (member : v ∈ handedOut vertices size requests) :
    v ∈ vertices := by
  obtain ⟨request, -, member⟩ := List.mem_flatMap.mp member
  exact List.mem_of_mem_drop (List.mem_of_mem_take member)

variable (positive : 0 < size) (answered : ∀ request < requests, Answered count size request)
include answered

/-- While vertices are left, the cursor has not come round. -/
theorem cursorAt_of_lt (left : requests * size < count) :
    cursorAt size requests = requests * size := by
  apply Nat.mod_eq_of_lt
  cases requests with
  | zero => simp
  | succ before =>
    have earlier := answered before (Nat.lt_succ_self before)
    rw [Nat.add_one_mul] at left ⊢
    rwa [Answered, if_pos (by omega)] at earlier

include positive

/-- Only requests after the last batch miss. -/
theorem misses_eq : misses count size requests = requests - batchCount count size := by
  induction requests with
  | zero => simp [misses]
  | succ before ih =>
    have earlier : ∀ request < before, Answered count size request :=
      fun request fewer => answered request (by omega)
    have here := answered before (Nat.lt_succ_self before)
    have within : before < batchCount count size ↔ before * size < count :=
      lt_batchCount_iff positive
    rw [misses_succ, ih earlier]
    by_cases left : before * size < count
    · have place := cursorAt_of_lt earlier left
      rw [if_neg (by omega)]
      omega
    · rw [Answered, if_neg left] at here
      rw [if_pos here]
      omega

end Cursor

/-- So far everything has been handed out in turn. -/
theorem handedOut_eq
    (answered : ∀ request < requests, Answered vertices.length size request) :
    handedOut vertices size requests = vertices.take (requests * size) := by
  induction requests with
  | zero => simp [handedOut]
  | succ before ih =>
    have earlier : ∀ request < before, Answered vertices.length size request :=
      fun request fewer => answered request (by omega)
    have here := answered before (Nat.lt_succ_self before)
    rw [handedOut_succ, ih earlier, Nat.add_one_mul]
    by_cases left : before * size < vertices.length
    · rw [cursorAt_of_lt earlier left, List.take_add]
    · rw [Answered, if_neg left] at here
      rw [List.drop_eq_nil_of_le here, List.take_nil, List.append_nil,
        List.take_of_length_le (by omega), List.take_of_length_le (by omega)]


namespace Settings

variable {s : Settings}

/-- A cursor that does not come round comes round to nothing. -/
theorem CursorFits.clears (fits : s.CursorFits count) (positive : 0 < s.batchSize)
    (staffed : 0 < s.numThreads) : s.CursorClears count := by
  intro request fewer
  have room : (request + 1) * s.batchSize ≤ 0x10000000000000000 :=
    Nat.le_trans (Nat.mul_le_mul_right _ fewer) fits
  rw [Nat.add_one_mul] at room
  unfold Answered
  split
  · next left =>
    have within := (lt_batchCount_iff positive).mpr left
    have spare : (request + 2) * s.batchSize ≤ 0x10000000000000000 :=
      Nat.le_trans (Nat.mul_le_mul_right _ (by omega)) fits
    rw [Nat.add_mul] at spare
    omega
  · next past =>
    rw [cursorAt, Nat.mod_eq_of_lt (by omega)]
    omega

/-- What holds for many vertices holds for fewer. -/
theorem CursorClears.mono {few many : Nat} (clears : s.CursorClears many) (fewer : few ≤ many) :
    s.CursorClears few := by
  intro request asked
  have batches := batchCount_mono s.batchSize fewer
  have earlier : ∀ before < request, Answered many s.batchSize before :=
    fun before less => clears before (by omega)
  have here := clears request (by omega)
  unfold Answered at here ⊢
  by_cases left : request * s.batchSize < many
  · rw [if_pos left] at here
    rw [cursorAt_of_lt earlier left]
    split <;> omega
  · rw [if_neg left] at here
    rw [if_neg (by omega)]
    omega

end Settings

namespace Handed

/-- Nothing has been handed out yet. -/
theorem start (vertices : List Nat) (workers : Nat) (positive : 0 < size) :
    Handed vertices size workers 0 0 [] (.ofVertices vertices size) where
  vertices_eq := rfl
  size_eq := by
    simp only [BatchSource.ofVertices]
    omega
  cursor_eq := by simp [cursorAt, BatchSource.ofVertices]
  staged_perm := by simp [handedOut]
  stopped_eq := by simp [misses]
  asked := by simp

theorem perm {more : List Nat}
    (handed : Handed vertices size workers requests stopped staged source)
    (same : staged.Perm more) : Handed vertices size workers requests stopped more source :=
  { handed with staged_perm := same.symm.trans handed.staged_perm }

/-- A request is answered by the batch at the cursor, or by nothing if the cursor is beyond the
vertices. -/
theorem next (handed : Handed vertices size workers requests stopped staged source)
    (running : stopped < workers) :
    Returns (Overruns vertices.length size workers)
      (fun answer : Option (List Nat) × BatchSource => match answer with
        | (none, rest) => Handed vertices size workers (requests + 1) (stopped + 1) staged rest
        | (some batch, rest) => (∀ v ∈ batch, v ∈ vertices) ∧
            Handed vertices size workers (requests + 1) stopped (staged ++ batch) rest)
      source.next := by
  obtain ⟨listed, sized, cursor, perm, halted, asked⟩ := handed
  have moved : source.advance.cursor = cursorAt size (requests + 1) := by
    simp only [BatchSource.advance, cursor, sized, cursorAt, Nat.add_one_mul, Nat.mod_add_mod]
  have asking (inside : cursorAt size requests < vertices.length →
      cursorAt size requests + size < 0x10000000000000000) : ∀ request < requests + 1,
      misses vertices.length size request < workers ∧
        (cursorAt size request < vertices.length →
          cursorAt size request + size < 0x10000000000000000) := by
    intro request fewer
    rcases Nat.lt_succ_iff_lt_or_eq.mp fewer with earlier | rfl
    · exact asked request earlier
    · exact ⟨halted ▸ running, inside⟩
  unfold BatchSource.next
  rw [listed, sized, cursor]
  split
  · next past =>
    refine ⟨listed, sized, moved, ?_, ?_, asking (by omega)⟩
    · rw [handedOut_succ, List.drop_eq_nil_of_le past, List.take_nil, List.append_nil]
      exact perm
    · rw [misses_succ, if_pos past, halted]
  · next left =>
    split
    · next within =>
      refine ⟨?_, listed, sized, moved, ?_, ?_, asking fun _ => within⟩
      · intro v member
        exact List.mem_of_mem_drop (List.mem_of_mem_take member)
      · rw [handedOut_succ]
        exact perm.append_right _
      · rw [misses_succ, if_neg left, halted, Nat.add_zero]
    · next beyond =>
      exact ⟨rfl, requests, halted ▸ running, Nat.lt_of_not_le left, Nat.le_of_not_lt beyond⟩

variable (positive : 0 < size) (staffed : 0 < workers)
include positive staffed

/-- When all workers have stopped without having come round, all vertices have been handed out. -/
theorem perm_of_answered
    (answered : ∀ request < batchCount vertices.length size + workers,
      Answered vertices.length size request)
    (handed : Handed vertices size workers requests workers staged source) :
    staged.Perm vertices := by
  have few : requests ≤ batchCount vertices.length size + workers := by
    by_contra more
    have last := (handed.asked _ (Nat.lt_of_not_le more)).1
    rw [misses_eq positive answered] at last
    omega
  have sofar : ∀ request < requests, Answered vertices.length size request :=
    fun request fewer => answered request (by omega)
  have counted := handed.stopped_eq
  rw [misses_eq positive sofar] at counted
  have past : ¬ requests * size < vertices.length := by
    rw [← lt_batchCount_iff positive]
    omega
  have all := handed.staged_perm
  rwa [handedOut_eq sofar, List.take_of_length_le (by omega)] at all

/-- When all workers have stopped and nothing has been handed out twice, no request was given what
an earlier one had been given. -/
theorem answered_of_nodup (single : staged.Nodup)
    (handed : Handed vertices size workers requests workers staged source) :
    ∀ request < batchCount vertices.length size + workers,
      Answered vertices.length size request := by
  have distinct := handed.staged_perm.nodup_iff.mp single
  have step : ∀ before ≤ requests, ∀ request < before, Answered vertices.length size request := by
    intro before
    induction before with
    | zero => simp
    | succ before ih =>
      intro few request fewer
      have earlier := ih (by omega)
      rcases Nat.lt_succ_iff_lt_or_eq.mp fewer with early | rfl
      · exact earlier request early
      · unfold Answered
        split
        · next left =>
          have within := (handed.asked request (by omega)).2
          rw [cursorAt_of_lt earlier left] at within
          exact within left
        · next past =>
          by_contra inside
          -- Everything has been handed out before, so what the cursor is on comes once more.
          have sofar : ((handedOut vertices size (request + 1)).Sublist
              (handedOut vertices size requests)) :=
            (List.range_sublist.mpr few).flatMap _
          have repeated := distinct.sublist sofar
          rw [handedOut_succ, handedOut_eq earlier, List.take_of_length_le (by omega)] at repeated
          obtain ⟨v, again⟩ := List.exists_mem_of_ne_nil
            ((vertices.drop (cursorAt size request)).take size) (by
              rw [Ne, List.take_eq_nil_iff, List.drop_eq_nil_iff]
              omega)
          have before := List.mem_of_mem_drop (List.mem_of_mem_take again)
          exact (List.nodup_append.mp repeated).2.2 v before v again rfl
  have counted := handed.stopped_eq
  rw [misses_eq positive (step requests (Nat.le_refl _))] at counted
  exact step _ (by omega)

omit staffed in
/-- Workers who have not come round do not come upon the end of the numbers. -/
theorem not_overruns
    (answered : ∀ request < batchCount vertices.length size + workers,
      Answered vertices.length size request) (failure : Failure) :
    ¬ Overruns vertices.length size workers failure := by
  rintro ⟨-, request, running, inside, beyond⟩
  have asked : request < batchCount vertices.length size + workers := by
    by_contra late
    have counted := misses_eq positive answered
    have more := misses_mono vertices.length size (Nat.le_of_not_lt late)
    omega
  have earlier : ∀ before < request, Answered vertices.length size before :=
    fun before fewer => answered before (by omega)
  have here := answered request asked
  unfold Answered at here
  split at here
  · next left =>
    rw [cursorAt_of_lt earlier left] at beyond
    omega
  · omega

end Handed

theorem Worker.simulateBatch_returns {batch : List Nat} (part : ∀ v ∈ batch, v ∈ vertices) :
    Returns (FailsAmong simulate vertices) (fun results => results.map (·.1) = batch)
      (simulateBatch simulate batch) := by
  induction batch with
  | nil => exact rfl
  | cons v rest ih =>
    have first : Returns (FailsAmong simulate vertices) (fun _ => True) (simulate v) := by
      cases simulated : simulate v with
      | error failure => exact ⟨v, part v (List.mem_cons_self ..), simulated⟩
      | ok simulation => trivial
    apply first.bind
    intro simulation _ _
    apply (ih fun w member => part w (List.mem_cons_of_mem _ member)).bind
    intro results _ listed
    exact congrArg (v :: ·) listed

namespace Crew

/-- Every request keeps count of what has been handed out. -/
theorem keeps_handed (simulate : Nat → Except Failure Simulation) (vertices : List Nat)
    (size workers : Nat) :
    Keeps simulate
      (fun failure => FailsAmong simulate vertices failure ∨
        Overruns vertices.length size workers failure)
      workers
      (fun stopped staged source =>
        ∃ requests, Handed vertices size workers requests stopped (staged.map (·.1)) source) where
  reorder := by
    rintro stopped staged more source same ⟨requests, handed⟩
    exact ⟨requests, handed.perm (same.map _)⟩
  ask := by
    rintro stopped staged source running ⟨requests, handed⟩
    refine (handed.next running).imp (fun _ _ => .inr) ?_
    rintro ⟨_ | batch, rest⟩ - answered
    · exact ⟨_, answered⟩
    · obtain ⟨part, served⟩ := answered
      refine (Worker.simulateBatch_returns part).imp (fun _ _ => .inl) ?_
      intro results _ listed
      refine ⟨requests + 1, ?_⟩
      rw [List.map_append, listed]
      exact served

variable (positive : 0 < size) (staffed : 0 < workers)
include positive staffed

/-- As long as no worker is given anything twice, the crew stages every vertex as often as it is
listed, whatever the turns are, unless one of the simulations fails. -/
theorem run_returns
    (answered : ∀ request < batchCount vertices.length size + workers,
      Answered vertices.length size request) (turns : List Nat) :
    Returns (FailsAmong simulate vertices) (fun results => (results.map (·.1)).Perm vertices)
      ((ofSize workers (.ofVertices vertices size)).run simulate turns) := by
  refine (run_keeps (keeps_handed simulate vertices size workers)
    ⟨0, .start vertices workers positive⟩ turns).imp ?_ ?_
  · rintro failure - (fails | overruns)
    · exact fails
    · exact (Handed.not_overruns positive answered failure overruns).elim
  · rintro results - ⟨rest, requests, handed⟩
    exact handed.perm_of_answered positive staffed answered

/-- When a cursor has come round to a vertex, the crew has staged it twice, whatever the turns are,
if it could go on at all. -/
theorem run_repeats
    (again : ¬ ∀ request < batchCount vertices.length size + workers,
      Answered vertices.length size request) (turns : List Nat) :
    Returns (fun failure => FailsAmong simulate vertices failure ∨ failure = .overflow)
      (fun results => (∀ v ∈ results.map (·.1), v ∈ vertices) ∧ ¬ (results.map (·.1)).Nodup)
      ((ofSize workers (.ofVertices vertices size)).run simulate turns) := by
  refine (run_keeps (keeps_handed simulate vertices size workers)
    ⟨0, .start vertices workers positive⟩ turns).imp ?_ ?_
  · rintro failure - (fails | ⟨overflow, -⟩)
    · exact .inl fails
    · exact .inr overflow
  · rintro results - ⟨rest, requests, handed⟩
    refine ⟨fun v member => ?_, fun single => ?_⟩
    · exact mem_of_mem_handedOut (handed.staged_perm.mem_iff.mp member)
    · exact again (handed.answered_of_nodup positive staffed single)

end Crew

end RoadHierarchy
