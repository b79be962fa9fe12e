import Mathlib

/-! # Loops that draw until they succeed

Each turn takes the next number that is drawn, and it ends the loop with a value or a
fault or leaves the state as it was. What the loop does is what its first turn that ends
it does.
-/
namespace BTRx.Retry
variable {ρ ε β : Type*} (turn : ρ → Except ε (Option β))

/-- The first `fuel` turns; `none` while the loop goes on. -/
def loop : ℕ → (ℕ → ρ) → Except ε (Option β)
  | 0, _ => .ok none
  | fuel + 1, draws =>
    match turn (draws 0) with
    | .ok none => loop fuel fun i => draws (i + 1)
    | ended => ended

variable {turn} {draws : ℕ → ρ} {fuel : ℕ} {r : Except ε (Option β)}

/-- The loop ends as the first turn that ends it. -/
theorem loop_eq_iff (hr : r ≠ .ok none) : loop turn fuel draws = r ↔
    ∃ i < fuel, turn (draws i) = r ∧ ∀ j < i, turn (draws j) = .ok none := by
  induction fuel generalizing draws with
  | zero =>
    simp only [loop,Nat.not_lt_zero,false_and,exists_false,iff_false]
    exact hr.symm
  | succ fuel ih =>
    rw [loop]
    split
    · rename_i hnone
      rw [ih]
      constructor
      · rintro ⟨i,hi,ht,hall⟩
        refine ⟨i + 1,by omega,ht,fun j hj => ?_⟩
        cases j with
        | zero => exact hnone
        | succ j => exact hall j (by omega)
      · rintro ⟨i,hi,ht,hall⟩
        cases i with
        | zero => exact absurd (ht.symm.trans hnone) hr
        | succ i => exact ⟨i,by omega,ht,fun j hj => hall (j + 1) (by omega)⟩
    · rename_i hends
      constructor
      · exact fun h => ⟨0,Nat.succ_pos fuel,h,fun j hj => absurd hj (Nat.not_lt_zero j)⟩
      · rintro ⟨i,_,ht,hall⟩
        cases i with
        | zero => exact ht
        | succ i => exact absurd (hall 0 (Nat.succ_pos i)) hends

/-- With one number drawn for ever, the first turn decides. -/
theorem loop_const (x : ρ) (hr : r ≠ .ok none) :
    (∃ fuel, loop turn fuel (fun _ => x) = r) ↔ turn x = r := by
  simp only [loop_eq_iff hr]
  constructor
  · exact fun ⟨_,_,_,ht,_⟩ => ht
  · exact fun ht => ⟨1,0,Nat.one_pos,ht,fun j hj => absurd hj (Nat.not_lt_zero j)⟩

end BTRx.Retry
