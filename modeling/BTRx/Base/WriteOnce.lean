import BTRx.Base.Transition

/-! # Cells that keep their first value

A write to a cell that has a value is lost, so that what a list of writes leaves in a cell is
the first of them that is meant for it. A system whose every step makes at most one write ends
with what the writes of its history leave.
-/
namespace BTRx.WriteOnce
open Transition
universe u v w x
variable {ι : Type u} {α : Type v} [DecidableEq ι]

def write (s : ι → Option α) (w : ι × α) : ι → Option α := Function.update s w.1 ((s w.1).or (some w.2))

/-- The writes in order, the first one at the head. -/
def writeAll (s : ι → Option α) (ws : List (ι × α)) : ι → Option α := ws.foldl write s

/-- What a write offers to a cell. -/
def offer (i : ι) (w : ι × α) : Option α := if w.1 = i then some w.2 else none

/-- The first value that is meant for a cell. -/
def first (i : ι) (ws : List (ι × α)) : Option α := ws.findSome? (offer i)

variable {s : ι → Option α} {ws : List (ι × α)} {i : ι} {a b : α}

theorem write_apply (s : ι → Option α) (w : ι × α) (i : ι) : write s w i = (s i).or (offer i w) := by
  by_cases h : w.1 = i
  · subst h
    rw [write,Function.update_self,offer,if_pos rfl]
  · rw [write,Function.update_of_ne (Ne.symm h),offer,if_neg h,Option.or_none]

theorem write_of_some (h : s i = some b) (a : α) : write s (i,a) = s := by
  rw [write,h,Option.some_or,← h,Function.update_eq_self]

theorem writeAll_apply (s : ι → Option α) (ws : List (ι × α)) (i : ι) :
    writeAll s ws i = (s i).or (first i ws) := by
  induction ws generalizing s with
  | nil => exact Option.or_none.symm
  | cons w ws ih =>
    have hstep : writeAll s (w :: ws) = writeAll (write s w) ws := rfl
    rw [hstep,ih,write_apply,Option.or_assoc,first,first,List.findSome?_cons]
    cases offer i w <;> rfl

theorem first_isSome (h : i ∈ ws.map Prod.fst) : (first i ws).isSome := by
  obtain ⟨w,hw,rfl⟩ := List.mem_map.mp h
  refine List.findSome?_isSome_iff.mpr ⟨w,hw,?_⟩
  rw [offer,if_pos rfl]
  rfl

section
variable {σ : Type w} {β : Type x} {step : σ → β → σ → Prop} {P : σ → Prop} {A : σ × β → Prop} {t₀ t : σ}
variable {hist : List (σ × β)}

/-- The rule for runs whose steps are all allowed: `f` reads the cells of a state and `g` the write of
a step. -/
theorem of_run (run : Run step t₀ hist t) (f : σ → ι → Option α) (g : σ × β → Option (ι × α)) (h0 : P t₀)
    (hok : ∀ e ∈ hist, A e) (hstep : ∀ t b u, P t → A (t,b) → step t b u →
      P u ∧ f u = (g (t,b)).elim (f t) (write (f t))) :
    P t ∧ f t = writeAll (f t₀) (hist.filterMap g).reverse := by
  induction run with
  | refl => exact ⟨h0,rfl⟩
  | @tail hist t u b run last ih =>
    obtain ⟨ha,hhist⟩ := List.forall_mem_cons.mp hok
    obtain ⟨hP,hf⟩ := ih hhist
    obtain ⟨hP',hw⟩ := hstep _ _ _ hP ha last
    refine ⟨hP',?_⟩
    rw [hw,hf]
    cases hg : g (t,b) with
    | none => rw [List.filterMap_cons_none hg,Option.elim_none]
    | some w =>
      rw [List.filterMap_cons_some hg,Option.elim_some,List.reverse_cons,writeAll,writeAll,List.foldl_append]
      rfl

/-- Where a step only writes to an empty cell, no cell is written twice. -/
theorem nodup_of_run (run : Run step t₀ hist t) (f : σ → ι → Option α) (g : σ × β → Option (ι × α)) (h0 : P t₀)
    (hok : ∀ e ∈ hist, A e) (hstep : ∀ t b u, P t → A (t,b) → step t b u →
      P u ∧ f u = (g (t,b)).elim (f t) (write (f t)))
    (hempty : ∀ t b u w, P t → A (t,b) → step t b u → g (t,b) = some w → f t w.1 = none) :
    ((hist.filterMap g).map Prod.fst).Nodup := by
  induction run with
  | refl => exact List.nodup_nil
  | @tail hist t u b run last ih =>
    obtain ⟨ha,hhist⟩ := List.forall_mem_cons.mp hok
    obtain ⟨hP,hf⟩ := of_run run f g h0 hhist hstep
    cases hg : g (t,b) with
    | none =>
      rw [List.filterMap_cons_none hg]
      exact ih hhist
    | some w =>
      rw [List.filterMap_cons_some hg,List.map_cons]
      refine List.nodup_cons.mpr ⟨fun hmem => ?_,ih hhist⟩
      have hnone := hempty _ _ _ w hP ha last hg
      rw [hf,writeAll_apply,Option.or_eq_none_iff] at hnone
      have hsome := first_isSome (List.map_reverse ▸ List.mem_reverse.mpr hmem)
      rw [hnone.2] at hsome
      cases hsome

end

end BTRx.WriteOnce
