/-!
# Results of computations

A computation has a result or fails. One that goes on with the result of another has a result where both have one, and it does
not matter to a result how failures are seen.
-/

namespace Propositional

variable {ε ε' ε'' α β γ : Type} {x : Except ε α}

/-- A failure is seen as another. -/
@[simp] theorem mapError_error (g : ε → ε') (e : ε) : (.error e : Except ε α).mapError g = .error (g e) := rfl

/-- A result stays as it is. -/
@[simp] theorem mapError_ok (g : ε → ε') (a : α) : (.ok a : Except ε α).mapError g = .ok a := rfl

/-- A result is the same however failures are seen. -/
theorem mapError_eq_ok_iff {g : ε → ε'} {a : α} : x.mapError g = .ok a ↔ x = .ok a := by
  cases x <;> simp

/-- A computation has a result where both its parts have one. -/
theorem bind_eq_ok_iff {f : α → Except ε β} {b : β} : x.bind f = .ok b ↔ ∃ a, x = .ok a ∧ f a = .ok b := by
  cases x <;> simp [Except.bind]

/-- A computation has a result where both its parts have one, however the failures of the first part are seen. -/
theorem mapError_bind_eq_ok_iff {g : ε → ε'} {f : α → Except ε' β} {b : β} :
    (x.mapError g).bind f = .ok b ↔ ∃ a, x = .ok a ∧ f a = .ok b := by
  rw [bind_eq_ok_iff]
  simp only [mapError_eq_ok_iff]

/-- A computation whose first part has a result goes on with it. -/
theorem bind_of_eq_ok {a : α} (h : x = .ok a) (f : α → Except ε β) : x.bind f = f a := by
  rw [h]
  rfl

/-- A computation whose first part has a result goes on with it, however failures are seen. -/
theorem mapError_bind_of_eq_ok {a : α} (h : x = .ok a) (g : ε → ε') (f : α → Except ε' β) : (x.mapError g).bind f = f a := by
  rw [h]
  rfl

/-- Failures that are seen twice in another way are seen once in both. -/
theorem Except.mapError_mapError (g : ε → ε') (h : ε' → ε'') (x : Except ε α) :
    (x.mapError g).mapError h = x.mapError (h ∘ g) := by
  cases x <;> rfl

/-- A check, a computation and what is made of it, with failures seen in one way behind the computation and in the
other before. -/
theorem mapError_bind_bind (x : Except ε α) (y : Except ε'' β) (g : ε'' → ε) (h : ε → ε') (f : β → Except ε' γ) :
    ((x.bind fun _ => y.mapError g).mapError h).bind f = (x.mapError h).bind fun _ => (y.mapError (h ∘ g)).bind f := by
  cases x with
  | error e => rfl
  | ok a => cases y <;> rfl

end Propositional
