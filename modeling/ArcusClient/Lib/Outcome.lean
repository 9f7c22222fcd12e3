import Mathlib.Tactic

/-!
# Outcomes of computations that may fail

`Ends E Q x` says that the computation `x` ends with a value that satisfies `Q`, or with an error that
satisfies `E`.  It is the triple of a program logic for `Except`, with the rules for sequencing and for
weakening.

`Related R x y` says that two computations run in step: both end with values that `R` relates, or
both with the same error (`Related.ends`).  `Unless E x y` says that they have the same outcome, unless
the first fails with an error in `E`.
-/

namespace Outcome

variable {ε α β : Type}

/-- The computation ends with a value in `Q` or an error in `E`. -/
def Ends (E : ε → Prop) (Q : α → Prop) : Except ε α → Prop
  | .ok a => Q a
  | .error e => E e

variable {E E' : ε → Prop} {Q Q' : α → Prop} {R : β → Prop} {x : Except ε α}

@[simp] theorem ends_ok : Ends E Q (.ok a : Except ε α) ↔ Q a := Iff.rfl

@[simp] theorem ends_pure : Ends E Q (pure a : Except ε α) ↔ Q a := Iff.rfl

@[simp] theorem ends_error : Ends E Q (.error e : Except ε α) ↔ E e := Iff.rfl

/-- A sequence that ends with a value has come through its first part. -/
theorem ok_of_bind {f : α → Except ε β} (h : x >>= f = .ok b) : ∃ a, x = .ok a ∧ f a = .ok b := by
  cases x with
  | ok a => exact ⟨a, rfl, h⟩
  | error e => cases h

/-- Sequencing: the rest starts from what the first part established. -/
theorem Ends.bind {f : α → Except ε β} (h : Ends E Q x) (hf : ∀ a, Q a → Ends E R (f a)) :
    Ends E R (x >>= f) := by
  cases x with
  | ok a => exact hf a h
  | error e => exact h

/-- Sequencing after a part that fails for reasons of its own. -/
theorem Ends.andThen {f : α → Except ε β} (h : Ends E Q x) (hE : ∀ e, E e → E' e)
    (hf : ∀ a, Q a → Ends E' R (f a)) : Ends E' R (x >>= f) := by
  cases x with
  | ok a => exact hf a h
  | error e => exact hE e h

/-- Sequencing after a part that nothing is said about. -/
theorem Ends.seq {f : α → Except ε β} (hf : ∀ a, Ends (fun _ => True) R (f a)) :
    Ends (fun _ => True) R (x >>= f) := by
  cases x with
  | ok a => exact hf a
  | error e => trivial

/-- Weakening. -/
theorem Ends.imp (h : Ends E Q x) (hE : ∀ e, E e → E' e) (hQ : ∀ a, Q a → Q' a) : Ends E' Q' x := by
  cases x with
  | ok a => exact hQ a h
  | error e => exact hE e h

/-- The value is changed afterwards. -/
@[simp] theorem ends_map {f : α → β} : Ends E R (x.map f) ↔ Ends E (fun a => R (f a)) x := by
  cases x <;> rfl

theorem Ends.of_eq_ok (h : Ends E Q x) (hx : x = .ok a) : Q a := by
  rw [hx] at h
  exact h

theorem Ends.of_eq_error (h : Ends E Q x) (hx : x = .error e) : E e := by
  rw [hx] at h
  exact h

/-- Two statements about one computation. -/
theorem Ends.and (h : Ends E Q x) (h' : Ends E' Q' x) :
    Ends (fun e => E e ∧ E' e) (fun a => Q a ∧ Q' a) x := by
  cases x with
  | ok a | error e => exact ⟨h, h'⟩

section Unless

variable {y : Except ε α}

/-- The same outcome, unless the first computation fails with an error in `E`. -/
def Unless (E : ε → Prop) (x y : Except ε α) : Prop := x = y ∨ ∃ e, E e ∧ x = .error e

theorem Unless.bind {f g : α → Except ε β} (h : Unless E x y) (hf : ∀ a, Unless E (f a) (g a)) :
    Unless E (x >>= f) (y >>= g) := by
  obtain rfl | ⟨e, he, rfl⟩ := h
  · cases x with
    | ok a => exact hf a
    | error e => exact .inl rfl
  · exact .inr ⟨e, he, rfl⟩

theorem Unless.of_ok (h : Unless E (.ok a) y) : y = .ok a := by
  obtain h | ⟨e, -, h⟩ := h
  · exact h.symm
  · cases h

end Unless

section Related

variable {γ δ : Type} {R : α → β → Prop} {S : γ → δ → Prop} {y : Except ε β}

/-- The computations end with related values, or with the same error. -/
def Related (R : α → β → Prop) : Except ε α → Except ε β → Prop
  | .ok a, .ok b => R a b
  | .error e, .error e' => e = e'
  | _, _ => False

@[simp] theorem related_ok : Related R (.ok a : Except ε α) (.ok b : Except ε β) ↔ R a b := Iff.rfl

@[simp] theorem related_error : Related R (.error e : Except ε α) (.error e : Except ε β) := rfl

/-- Sequencing: the rests run in step from related values. -/
theorem Related.bind {f : α → Except ε γ} {g : β → Except ε δ} (h : Related R x y)
    (hf : ∀ a b, R a b → Related S (f a) (g b)) : Related S (x >>= f) (y >>= g) := by
  cases x with
  | ok a =>
    cases y with
    | ok b => exact hf a b h
    | error e => exact h.elim
  | error e =>
    cases y with
    | ok b => exact h.elim
    | error e' => exact h

/-- What is known of the end of the second computation is kept beside the relation. -/
theorem Related.and_ends (h : Related R x y) {P : β → Prop} (hy : Ends E P y) :
    Related (fun a b => R a b ∧ P b) x y := by
  cases x with
  | ok a =>
    cases y with
    | ok b => exact ⟨h, hy⟩
    | error e => exact h
  | error e =>
    cases y with
    | ok b | error e' => exact h

/-- What the second computation ends with, the first does up to the relation. -/
theorem Related.ends (h : Related R x y) {P : β → Prop} (hy : Ends E P y) :
    Ends E (fun a => ∃ b, R a b ∧ P b) x := by
  cases x with
  | ok a =>
    cases y with
    | ok b => exact ⟨b, h, hy⟩
    | error e => exact h.elim
  | error e =>
    cases y with
    | ok b => exact h.elim
    | error e' => exact Eq.substr h hy

end Related

end Outcome
