import Mathlib

/-! # Runs of a labelled transition system

A run keeps its history: the state before each step with the label of the step, newest
first. Conditions on the environment are conditions on what a step may add to the
history. An invariant may speak of the history as well as of the state.
-/
namespace BTRx.Transition
universe u v w
variable {σ : Type u} {α : Type v} {step : σ → α → σ → Prop}

/-- `Run step s hist t`: the steps of `hist` lead from `s` to `t`. -/
inductive Run (step : σ → α → σ → Prop) (s : σ) : List (σ × α) → σ → Prop
  | refl : Run step s [] s
  | tail {hist : List (σ × α)} {t u : σ} {a : α} (run : Run step s hist t) (last : step t a u) :
    Run step s ((t,a) :: hist) u

/-- Every step of the history met `ok` when it was taken. -/
def Admissible (ok : List (σ × α) → σ → α → Prop) : List (σ × α) → Prop
  | [] => True
  | (t,a) :: hist => ok hist t a ∧ Admissible ok hist

instance decidableAdmissible {ok : List (σ × α) → σ → α → Prop} [∀ hist t a, Decidable (ok hist t a)] :
    (hist : List (σ × α)) → Decidable (Admissible ok hist)
  | [] => isTrue trivial
  | (t,a) :: hist =>
    have : Decidable (Admissible ok hist) := decidableAdmissible hist
    inferInstanceAs (Decidable (ok hist t a ∧ Admissible ok hist))

theorem Run.invariant {ok : List (σ × α) → σ → α → Prop} {P : List (σ × α) → σ → Prop} {s t : σ}
    {hist : List (σ × α)} (run : Run step s hist t) (hok : Admissible ok hist) (h0 : P [] s)
    (hstep : ∀ hist t a u, P hist t → ok hist t a → step t a u → P ((t,a) :: hist) u) :
    P hist t := by
  induction run with
  | refl => exact h0
  | tail _ last ih => exact hstep _ _ _ _ (ih hok.2) hok.1 last

/-- An invariant that needs no condition on the steps. -/
theorem Run.always {P : List (σ × α) → σ → Prop} {s t : σ} {hist : List (σ × α)}
    (run : Run step s hist t) (h0 : P [] s)
    (hstep : ∀ hist t a u, P hist t → step t a u → P ((t,a) :: hist) u) : P hist t := by
  induction run with
  | refl => exact h0
  | tail _ last ih => exact hstep _ _ _ _ ih last

/-- An invariant of the states alone. -/
theorem Run.preserves {P : σ → Prop} {s t : σ} {hist : List (σ × α)} (run : Run step s hist t)
    (h0 : P s) (hstep : ∀ t a u, P t → step t a u → P u) : P t :=
  run.always h0 fun _ t a u h last => hstep t a u h last

/-- A run is followed step by step by another system, from states that keep `P`. -/
theorem Run.simulate {τ β : Type*} {step' : τ → β → τ → Prop} {P : σ → Prop} {s t : σ} {hist : List (σ × α)}
    (run : Run step s hist t) (f : σ → τ) (g : α → β) (h0 : P s)
    (hstep : ∀ t a u, P t → step t a u → P u ∧ step' (f t) (g a) (f u)) :
    P t ∧ Run step' (f s) (hist.map fun e => (f e.1,g e.2)) (f t) := by
  induction run with
  | refl => exact ⟨h0,Run.refl⟩
  | tail run last ih =>
    obtain ⟨hP,hrun⟩ := ih
    obtain ⟨hP',hlast⟩ := hstep _ _ _ hP last
    exact ⟨hP',hrun.tail hlast⟩

/-- A run is followed by another system that stands still at some of the steps. -/
theorem Run.project {τ β : Type*} {step' : τ → β → τ → Prop} {P : σ → Prop} {s t : σ} {hist : List (σ × α)}
    (run : Run step s hist t) (f : σ → τ) (g : σ × α → Option (τ × β)) (h0 : P s)
    (hpres : ∀ t a u, P t → step t a u → P u)
    (hstep : ∀ t a u, P t → step t a u →
      g (t,a) = none ∧ f u = f t ∨ ∃ b, g (t,a) = some (f t,b) ∧ step' (f t) b (f u)) :
    Run step' (f s) (hist.filterMap g) (f t) := by
  induction run with
  | refl => exact Run.refl
  | tail run last ih =>
    rcases hstep _ _ _ (run.preserves h0 hpres) last with ⟨hg,hf⟩ | ⟨b,hg,hlast⟩
    · rw [List.filterMap_cons_none hg,hf]
      exact ih
    · rw [List.filterMap_cons_some hg]
      exact ih.tail hlast

/-- Forward simulation: a run is followed through a relation between the states, as long as its
steps are allowed, and `Q` relates the entries of the histories. -/
theorem Run.follow {τ β : Type*} {step' : τ → β → τ → Prop} {R : σ → τ → Prop} {Q : σ × α → τ × β → Prop}
    {A : σ × α → Prop} {s t : σ} {s' : τ} {hist : List (σ × α)} (run : Run step s hist t) (h0 : R s s')
    (hok : ∀ e ∈ hist, A e) (hstep : ∀ t a u t', R t t' → A (t,a) → step t a u →
      ∃ b u', step' t' b u' ∧ R u u' ∧ Q (t,a) (t',b)) :
    ∃ hist' t', Run step' s' hist' t' ∧ R t t' ∧ List.Forall₂ Q hist hist' := by
  induction run with
  | refl => exact ⟨[],s',Run.refl,h0,.nil⟩
  | tail run last ih =>
    obtain ⟨ha,hhist⟩ := List.forall_mem_cons.mp hok
    obtain ⟨hist',t',run',hR,hQ⟩ := ih hhist
    obtain ⟨b,u',hlast,hR',hQ'⟩ := hstep _ _ _ _ hR ha last
    exact ⟨_,u',run'.tail hlast,hR',.cons hQ' hQ⟩

/-- A measure that every step lowers bounds the number of steps. -/
theorem Run.length_add_le {Φ : σ → ℕ} {P : σ → Prop} {s t : σ} {hist : List (σ × α)}
    (run : Run step s hist t) (h0 : P s) (hstep : ∀ t a u, P t → step t a u → P u)
    (hlt : ∀ t a u, P t → step t a u → Φ u < Φ t) : hist.length + Φ t ≤ Φ s := by
  induction run with
  | refl => simp
  | tail run last ih =>
    have h := hlt _ _ _ (run.preserves h0 hstep) last
    simp only [List.length_cons]
    omega

/-- There is a run that never stops. -/
def Endless (step : σ → α → σ → Prop) (s : σ) : Prop :=
  ∃ (t : ℕ → σ) (a : ℕ → α), t 0 = s ∧ ∀ n, step (t n) (a n) (t (n + 1))

/-- A measure that every step lowers in a well-founded order leaves no such run. -/
theorem not_endless {μ : Type*} [Preorder μ] [WellFoundedLT μ] {Φ : σ → μ} {P : σ → Prop} {s : σ} (h0 : P s)
    (hstep : ∀ t a u, P t → step t a u → P u) (hlt : ∀ t a u, P t → step t a u → Φ u < Φ t) :
    ¬ Endless step s := by
  rintro ⟨t,a,rfl,h⟩
  have hP : ∀ n, P (t n) := by
    intro n
    induction n with
    | zero => exact h0
    | succ n ih => exact hstep _ _ _ ih (h n)
  obtain ⟨n,hn⟩ := WellFounded.not_rel_apply_succ (r := (· < ·)) fun n => Φ (t n)
  exact hn (hlt _ _ _ (hP n) (h n))

/-! ## Programs that run their labels in order -/

section Exec
variable {ε β : Type*}

/-- The runs of a program: a label is an input with the output it gave. -/
def ExecStep (exec : σ → α → Except ε (β × σ)) (s : σ) (l : α × β) (t : σ) : Prop :=
  exec s l.1 = .ok (l.2,t)

def execAll (exec : σ → α → Except ε (β × σ)) :
    List α → List (σ × α × β) → σ → Except ε (List (σ × α × β) × σ)
  | [], hist, s => .ok (hist,s)
  | a :: as, hist, s =>
    match exec s a with
    | .error e => .error e
    | .ok (b,t) => execAll exec as ((s,a,b) :: hist) t

theorem run_of_execAll {exec : σ → α → Except ε (β × σ)} {s₀ s t : σ} {as : List α}
    {hist hist' : List (σ × α × β)} (run : Run (ExecStep exec) s₀ hist s)
    (h : execAll exec as hist s = .ok (hist',t)) : Run (ExecStep exec) s₀ hist' t := by
  induction as generalizing hist s with
  | nil =>
    cases h
    exact run
  | cons a as ih =>
    unfold execAll at h
    cases hx : exec s a with
    | error e =>
      rw [hx] at h
      cases h
    | ok r =>
      obtain ⟨b,u⟩ := r
      rw [hx] at h
      have hlast : ExecStep exec s (a,b) u := hx
      exact ih (run.tail hlast) h

/-- A program that runs to a state with a property. -/
theorem exists_run {exec : σ → α → Except ε (β × σ)} {s₀ : σ} {as : List α}
    {P : List (σ × α × β) → σ → Bool}
    (h : ((execAll exec as [] s₀).toOption.any fun r => P r.1 r.2) = true) :
    ∃ hist t, Run (ExecStep exec) s₀ hist t ∧ P hist t = true := by
  cases hx : execAll exec as [] s₀ with
  | error e =>
    rw [hx] at h
    cases h
  | ok r =>
    rw [hx] at h
    exact ⟨r.1,r.2,run_of_execAll Run.refl hx,h⟩

end Exec

end BTRx.Transition
