import Mathlib

/-! # Outcomes of a program step

A step of the modelled program either returns a value or ends in a fault. A fault
is a call of `_exit(1)`, an exception that no frame catches, or an operation whose
behaviour C++ leaves undefined; in each case nothing after it is described.
-/
namespace BTRx

/-- The ways a step can fail to return. -/
inductive Fault
  | exit
  | uncaught
  | outOfRange
  | badShift
  | nullPointer
  | danglingPointer
  | emptyFront
  | badDequeIndex
  | indeterminate
  | divByZero
  deriving DecidableEq, Repr

/-- The faults of an index or a shift outside its range. -/
def Fault.Bounds (f : Fault) : Prop := f = .outOfRange ∨ f = .badShift

/-- The faults of a container or a pointer that is out of date. -/
def Fault.Stale (f : Fault) : Prop := f = .emptyFront ∨ f = .badDequeIndex ∨ f = .danglingPointer

theorem Fault.Bounds.ne_null {f : Fault} (h : f.Bounds) : f ≠ .nullPointer := by
  rcases h with rfl | rfl <;> exact nofun

theorem Fault.Stale.ne_null {f : Fault} (h : f.Stale) : f ≠ .nullPointer := by
  rcases h with rfl | rfl | rfl <;> exact nofun

theorem Fault.Stale.not_bounds {f : Fault} (h : f.Stale) : ¬ f.Bounds := by
  rcases h with rfl | rfl | rfl <;> simp [Fault.Bounds]

namespace Outcome
universe u
variable {ε : Type*} {α β : Type u}

@[simp] theorem ok_bind (a : α) (f : α → Except ε β) : (Except.ok a >>= f) = f a := (rfl)
@[simp] theorem error_bind (e : ε) (f : α → Except ε β) :
    ((Except.error e : Except ε α) >>= f) = Except.error e := (rfl)
@[simp] theorem pure_eq (a : α) : (pure a : Except ε α) = Except.ok a := (rfl)
@[simp] theorem throw_eq (e : ε) : (throw e : Except ε α) = Except.error e := (rfl)

/-- A sequence returns exactly when both of its parts do. -/
theorem bind_eq_ok {x : Except ε α} {f : α → Except ε β} {b : β} :
    (x >>= f) = Except.ok b ↔ ∃ a, x = Except.ok a ∧ f a = Except.ok b := by
  cases x with
  | error e => simp
  | ok a => simp

theorem bind_eq_error {x : Except ε α} {f : α → Except ε β} {e : ε} :
    (x >>= f) = Except.error e ↔
      x = Except.error e ∨ ∃ a, x = Except.ok a ∧ f a = Except.error e := by
  cases x with
  | error e' => simp
  | ok a => simp

/-- Renaming the errors keeps the values. -/
theorem mapError_eq_ok {ε' : Type*} {g : ε → ε'} {x : Except ε α} {a : α} :
    x.mapError g = Except.ok a ↔ x = Except.ok a := by
  cases x with
  | error e => simp [Except.mapError]
  | ok b => simp [Except.mapError]

/-- What each turn of a loop preserves holds after the loop. -/
theorem foldlM_preserves {γ : Type*} {f : α → γ → Except ε α} {P : α → Prop} {l : List γ} {a b : α}
    (hf : ∀ x ∈ l, ∀ a b, f a x = Except.ok b → P a → P b) (h : l.foldlM f a = Except.ok b)
    (ha : P a) : P b := by
  induction l generalizing a with
  | nil =>
    cases h
    exact ha
  | cons x l ih =>
    obtain ⟨hx,hl⟩ := List.forall_mem_cons.mp hf
    rw [List.foldlM_cons] at h
    obtain ⟨c,hc,h⟩ := bind_eq_ok.mp h
    exact ih hl h (hx a c hc ha)

end Outcome

end BTRx
