import RoadHierarchy.Failure

/-! # Successful computations

What a computation that may fail has done when it succeeds: every part of it has succeeded, and a
fold over a list keeps what each of its steps keeps, and commutes with what each of them does.
-/

namespace RoadHierarchy

variable {α β ε : Type}

/-- A sequence succeeds when both of its parts do. -/
theorem bind_eq_ok {x : Except ε α} {f : α → Except ε β} {result : β} :
    (x >>= f) = .ok result ↔ ∃ value, x = .ok value ∧ f value = .ok result := by
  cases x with
  | error failure => simp [bind, Except.bind]
  | ok value => simp [bind, Except.bind]

/-- Sequences with the same first part agree if they go on alike from what it gives. -/
theorem bind_congr_ok {x : Except ε α} {f g : α → Except ε β}
    (alike : ∀ value, x = .ok value → f value = g value) : (x >>= f) = (x >>= g) := by
  cases x with
  | error failure => rfl
  | ok value => exact alike value rfl

theorem map_eq_ok {x : Except ε α} {f : α → β} {result : β} :
    f <$> x = .ok result ↔ ∃ value, x = .ok value ∧ f value = result := by
  cases x with
  | error failure => simp [Functor.map, Except.map]
  | ok value => simp [Functor.map, Except.map]

theorem pure_eq_ok {value result : α} :
    (pure value : Except ε α) = .ok result ↔ value = result := by
  simp [pure, Except.pure]

theorem throw_ne_ok {failure : ε} {result : α} :
    (throw failure : Except ε α) = .ok result ↔ False := by
  simp [throw, throwThe, MonadExceptOf.throw]

theorem elim_eq_ok {value : Option α} {failure : ε} {result : α} :
    value.elim (.error failure) .ok = (.ok result : Except ε α) ↔ value = some result := by
  cases value <;> simp

theorem toOption_eq_some {x : Except ε α} {result : α} :
    x.toOption = some result ↔ x = .ok result := by
  cases x <;> simp [Except.toOption]

/-- A list is mapped when every one of its members can be. -/
theorem mapM_eq_ok {f : α → Except ε β} {value : α → β} {items : List α}
    (each : ∀ item ∈ items, f item = .ok (value item)) :
    items.mapM f = .ok (items.map value) := by
  induction items with
  | nil => rfl
  | cons head rest ih =>
    have later := ih fun item member => each item (List.mem_cons_of_mem _ member)
    rw [List.mapM_cons, each head (List.mem_cons_self ..), later]
    rfl

/-- Every step of a fold succeeds when the fold does. -/
theorem foldlM_cons_eq_ok {step : β → α → Except ε β} {head : α} {rest : List α}
    {start result : β} : (head :: rest).foldlM step start = .ok result ↔
      ∃ next, step start head = .ok next ∧ rest.foldlM step next = .ok result := by
  rw [List.foldlM_cons, bind_eq_ok]

/-- What every step keeps, the fold keeps. -/
theorem foldlM_keeps {step : β → α → Except ε β} (kept : β → Prop) {items : List α}
    {start result : β} (keeps : ∀ item ∈ items, ∀ state next,
      step state item = .ok next → kept state → kept next)
    (success : items.foldlM step start = .ok result) (initial : kept start) : kept result := by
  induction items generalizing start with
  | nil =>
    rw [List.foldlM_nil, pure_eq_ok] at success
    exact success ▸ initial
  | cons head rest ih =>
    obtain ⟨next, first, later⟩ := foldlM_cons_eq_ok.mp success
    exact ih (fun item member => keeps item (List.mem_cons_of_mem _ member)) later
      (keeps head (List.mem_cons_self ..) start next first initial)

/-- A fold commutes with whatever every one of its steps commutes with. -/
theorem foldlM_commutes {step : β → α → Except ε β} {f : β → β}
    (commutes : ∀ state item, step (f state) item = f <$> step state item) (items : List α)
    (start : β) : items.foldlM step (f start) = f <$> items.foldlM step start := by
  induction items generalizing start with
  | nil => rfl
  | cons head rest ih =>
    rw [List.foldlM_cons, List.foldlM_cons, commutes, bind_map_left, map_bind]
    exact bind_congr_ok fun next _ => ih next

end RoadHierarchy
