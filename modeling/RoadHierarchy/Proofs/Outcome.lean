import RoadHierarchy.Proofs.Success

/-! # Outcomes

What a computation that may fail comes to: a value of a kind, or a failure for a cause of a kind. A
sequence fails only for a cause for which one of its parts fails, and a part may rely on what the
parts before it have given.
-/

namespace RoadHierarchy

variable {α β ε : Type}

/-- The computation gives a value of a kind, unless it fails for a cause of a kind. -/
def Returns (cause : ε → Prop) (kind : α → Prop) : Except ε α → Prop
  | .ok value => kind value
  | .error failure => cause failure

namespace Returns

variable {cause wider : ε → Prop} {kind : α → Prop} {later : β → Prop} {x : Except ε α}

theorem of_eq_ok {value : α} (success : x = .ok value) (given : kind value) :
    Returns cause kind x := by
  rw [success]
  exact given

/-- Any cause to fail will do for what is known only of the value. -/
theorem of_success (kinds : ∀ value, x = .ok value → kind value) :
    Returns (fun _ => True) kind x := by
  cases x with
  | error failure => trivial
  | ok value => exact kinds value rfl

/-- What is known of the value when there is one may be known in another way. -/
theorem imp {other : α → Prop} (returns : Returns cause kind x)
    (causes : ∀ failure, x = .error failure → cause failure → wider failure)
    (kinds : ∀ value, x = .ok value → kind value → other value) : Returns wider other x := by
  cases x with
  | error failure => exact causes failure rfl returns
  | ok value => exact kinds value rfl returns

theorem mono {other : α → Prop} (returns : Returns cause kind x)
    (kinds : ∀ value, x = .ok value → kind value → other value) : Returns cause other x :=
  returns.imp (fun _ _ given => given) kinds

theorem bind {f : α → Except ε β} (first : Returns cause kind x)
    (next : ∀ value, x = .ok value → kind value → Returns cause later (f value)) :
    Returns cause later (x >>= f) := by
  cases x with
  | error failure => exact first
  | ok value => exact next value rfl first

/-- A part that is known to succeed gives its value to the rest. -/
theorem after {f : α → Except ε β} {value : α} (success : x = .ok value)
    (next : Returns cause later (f value)) : Returns cause later (x >>= f) := by
  rw [success]
  exact next

theorem map {f : α → β} (first : Returns cause kind x)
    (next : ∀ value, x = .ok value → kind value → later (f value)) :
    Returns cause later (f <$> x) := by
  cases x with
  | error failure => exact first
  | ok value => exact next value rfl first

/-- A fold keeps what each of its steps keeps, and fails only where a step fails. -/
theorem foldlM {step : β → α → Except ε β} {items : List α} {start : β}
    (steps : ∀ item ∈ items, ∀ state, later state → Returns cause later (step state item))
    (initial : later start) : Returns cause later (items.foldlM step start) := by
  induction items generalizing start with
  | nil => exact initial
  | cons head rest ih =>
    rw [List.foldlM_cons]
    apply bind (steps head (List.mem_cons_self ..) start initial)
    intro next _ kept
    exact ih (fun item member => steps item (List.mem_cons_of_mem _ member)) kept

/-- Without a cause to fail there is a value. -/
theorem exists_ok (returns : Returns cause kind x)
    (excluded : ∀ failure, cause failure → x ≠ .error failure) :
    ∃ value, x = .ok value ∧ kind value := by
  cases x with
  | error failure => exact (excluded failure returns rfl).elim
  | ok value => exact ⟨value, rfl, returns⟩

end Returns

end RoadHierarchy
