import BTRx.Base.Transition
import BTRx.ObjStore.Bfield

/-! # The bitfield as a set

`exists` decides membership in a set of positions, and each overload of `flip` inserts the
position it addresses. A sequence of flips in any order is the union with the positions
addressed.
-/
namespace BTRx
open ByteSet Transition

/-- A call of `flip(pcno)` or of `flip(wholes, lftover)`. -/
inductive FlipCall
  | piece (pcno : ℤ)
  | bit (wholes lftover : ℤ)

namespace FlipCall

/-- The position a call addresses. -/
def position : FlipCall → ℤ
  | piece pcno => pcno
  | bit wholes lftover => 8 * wholes + lftover

/-- A call on a position of a vector of `n` bytes. -/
def InRange (n : ℕ) : FlipCall → Prop
  | piece pcno => 0 ≤ pcno ∧ pcno < 8 * n
  | bit wholes lftover => 0 ≤ wholes ∧ wholes < n ∧ 0 ≤ lftover ∧ lftover < 8

theorem InRange.position {n : ℕ} {x : FlipCall} (h : x.InRange n) :
    ∃ p : ℕ, p < 8 * n ∧ x.position = p := by
  cases x with
  | piece pcno =>
    obtain ⟨h0,hlt⟩ := h
    exact ⟨pcno.toNat,by omega,by simp only [FlipCall.position]; omega⟩
  | bit wholes lftover =>
    obtain ⟨h0,hlt,hj0,hj⟩ := h
    exact ⟨(8 * wholes + lftover).toNat,by omega,by simp only [FlipCall.position]; omega⟩

end FlipCall

namespace Bfield
variable {b t : Bfield}

/-- A call of `flip`, with the value that the second overload returns. -/
def flipCall (b : Bfield) : FlipCall → Except Fault (Option Bool × Bfield)
  | .piece pcno => do
    let b ← b.flip pcno
    return (none,b)
  | .bit wholes lftover => do
    let (ret,b) ← b.flipAt wholes lftover
    return (some ret,b)

/-- The positions that `exists` finds. -/
def held (b : Bfield) : Set ℤ := {q | b.exists q = .ok true}

theorem mem_held {q : ℤ} : q ∈ b.held ↔ ∃ p : ℕ, q = p ∧ bitAt b.bfield p = true := by
  rw [held,Set.mem_ofPred_eq,exists_eq_ok]
  constructor
  · rintro ⟨p,hq,_,hbit⟩
    exact ⟨p,hq,hbit.symm⟩
  · rintro ⟨p,hq,hbit⟩
    exact ⟨p,hq,lt_of_bitAt hbit,hbit.symm⟩

theorem natCast_mem_held {p : ℕ} : (p : ℤ) ∈ b.held ↔ bitAt b.bfield p = true := by
  rw [mem_held]
  constructor
  · rintro ⟨k,hk,hbit⟩
    rwa [Int.ofNat_inj.mp hk]
  · exact fun hbit => ⟨p,rfl,hbit⟩

theorem held_setAt {p : ℕ} (hp : p < 8 * b.bfield.length) :
    held ⟨setAt b.bfield p⟩ = insert (p : ℤ) b.held := by
  ext q
  rw [Set.mem_insert_iff,mem_held,mem_held]
  simp only [bitAt_setAt hp,Bool.or_eq_true,decide_eq_true_eq]
  constructor
  · rintro ⟨k,rfl,hbit | rfl⟩
    · exact Or.inr ⟨k,rfl,hbit⟩
    · exact Or.inl rfl
  · rintro (rfl | ⟨k,rfl,hbit⟩)
    · exact ⟨p,rfl,Or.inr rfl⟩
    · exact ⟨k,rfl,Or.inl hbit⟩

/-- Inside the vector `exists` decides membership. -/
theorem exists_in_range {q : ℤ} (h0 : 0 ≤ q) (hlt : q < 8 * b.bfield.length) :
    ∃ r, b.exists q = .ok r ∧ (r = true ↔ q ∈ b.held) := by
  obtain ⟨p,rfl⟩ := Int.eq_ofNat_of_zero_le h0
  have hp : p < 8 * b.bfield.length := by exact_mod_cast hlt
  refine ⟨_,exists_of_lt hp,?_⟩
  rw [held,Set.mem_ofPred_eq,exists_of_lt hp,Except.ok.injEq]

/-- A call in range inserts its position, and `flip(wholes, lftover)` tells whether that
was new. -/
theorem flipCall_spec {x : FlipCall} (h : x.InRange b.bfield.length) :
    ∃ ret b', b.flipCall x = .ok (ret,b') ∧ b'.bfield.length = b.bfield.length ∧
      b'.held = insert x.position b.held ∧
      ∀ wholes lftover, x = .bit wholes lftover → ∃ r, ret = some r ∧ (r = true ↔ x.position ∉ b.held) := by
  cases x with
  | piece pcno =>
    obtain ⟨h0,hlt⟩ := h
    obtain ⟨p,rfl⟩ := Int.eq_ofNat_of_zero_le h0
    have hp : p < 8 * b.bfield.length := by exact_mod_cast hlt
    refine ⟨none,⟨setAt b.bfield p⟩,?_,setAt_length _ _,held_setAt hp,nofun⟩
    rw [flipCall,flip_of_lt hp]
    rfl
  | bit wholes lftover =>
    obtain ⟨h0,hlt,hj0,hj⟩ := h
    obtain ⟨i,rfl⟩ := Int.eq_ofNat_of_zero_le h0
    obtain ⟨j,rfl⟩ := Int.eq_ofNat_of_zero_le hj0
    have hi : i < b.bfield.length := by exact_mod_cast hlt
    have hj8 : j < 8 := by exact_mod_cast hj
    have hpos : FlipCall.position (.bit i j) = ((8 * i + j : ℕ) : ℤ) := by
      simp only [FlipCall.position]
      push_cast
      rfl
    refine ⟨some (!bitAt b.bfield (8 * i + j)),⟨setAt b.bfield (8 * i + j)⟩,?_,setAt_length _ _,?_,?_⟩
    · rw [flipCall,flipAt_natCast b i hj8,if_pos hi]
      rfl
    · rw [hpos]
      exact held_setAt (by omega)
    · intro _ _ _
      refine ⟨_,rfl,?_⟩
      rw [hpos,natCast_mem_held,Bool.not_eq_true',Bool.not_eq_true]

/-- The abstract effect of a run: a union. -/
theorem held_run {hist : List (Bfield × FlipCall × Option Bool)} (run : Run (ExecStep flipCall) b hist t)
    (hin : ∀ e ∈ hist, e.2.1.InRange b.bfield.length) : t.bfield.length = b.bfield.length ∧
      t.held = b.held ∪ {q | ∃ e ∈ hist, e.2.1.position = q} := by
  induction run with
  | refl => exact ⟨rfl,by simp⟩
  | @tail hist u t l run last ih =>
    rw [List.forall_mem_cons] at hin
    obtain ⟨hlen,hheld⟩ := ih hin.2
    obtain ⟨x,ret⟩ := l
    obtain ⟨ret',t',hcall,hlen',hins,_⟩ := flipCall_spec (b := u) (by rw [hlen]; exact hin.1)
    cases hcall.symm.trans last
    refine ⟨hlen'.trans hlen,?_⟩
    ext q
    rw [hins,hheld]
    simp only [Set.mem_insert_iff,Set.mem_union,Set.mem_ofPred_eq,List.exists_mem_cons_iff]
    tauto

/-- After every sequence of flips in range, `exists` finds what it found before and what
was addressed; the next flip returns, clears nothing, and tells whether its position is new. -/
theorem flips_implement_set {hist : List (Bfield × FlipCall × Option Bool)}
    (run : Run (ExecStep flipCall) b hist t) (hin : ∀ e ∈ hist, e.2.1.InRange b.bfield.length) :
    (∀ q : ℤ, 0 ≤ q → q < 8 * b.bfield.length → ∃ r, t.exists q = .ok r ∧
      (r = true ↔ b.exists q = .ok true ∨ ∃ e ∈ hist, e.2.1.position = q)) ∧
    ∀ x : FlipCall, x.InRange b.bfield.length → ∃ ret t', t.flipCall x = .ok (ret,t') ∧
      (∀ q, t.exists q = .ok true → t'.exists q = .ok true) ∧
      ∀ wholes lftover, x = .bit wholes lftover →
        ∃ r, ret = some r ∧ (r = true ↔ t.exists (8 * wholes + lftover) = .ok false) := by
  obtain ⟨hlen,hheld⟩ := held_run run hin
  refine ⟨fun q h0 hlt => ?_,fun x hx => ?_⟩
  · obtain ⟨r,hr,hmem⟩ := exists_in_range (b := t) h0 (by rw [hlen]; exact hlt)
    refine ⟨r,hr,?_⟩
    rw [hmem,hheld]
    exact Iff.rfl
  · rw [← hlen] at hx
    obtain ⟨ret,t',hcall,_,hins,hret⟩ := flipCall_spec hx
    refine ⟨ret,t',hcall,fun q hq => ?_,fun wholes lftover heq => ?_⟩
    · have hmem : q ∈ t'.held := by
        rw [hins]
        exact Set.mem_insert_of_mem _ hq
      exact hmem
    · obtain ⟨r,hr,hnew⟩ := hret wholes lftover heq
      subst heq
      obtain ⟨p,hp,hpos⟩ := hx.position
      refine ⟨r,hr,?_⟩
      rw [hnew]
      rw [FlipCall.position] at hpos ⊢
      rw [hpos,held,Set.mem_ofPred_eq,exists_of_lt hp]
      simp

/-- One position, flipped by both overloads. -/
theorem flips_implement_set_byte : ∃ hist t, Run (ExecStep flipCall) ⟨[0]⟩ hist t ∧
    (∃ e ∈ hist, e.2.1.position = 3 ∧ e.2.2 = some false) ∧ ∃ r, t.exists 3 = .ok r ∧
      (r = true ↔ (⟨[0]⟩ : Bfield).exists 3 = .ok true ∨ ∃ e ∈ hist, e.2.1.position = 3) := by
  have run := run_of_execAll Run.refl
    (show execAll flipCall [.piece 3,.bit 0 3] [] ⟨[0]⟩ = .ok _ from rfl)
  refine ⟨_,_,run,⟨_,List.mem_cons_self,rfl,rfl⟩,(flips_implement_set run ?_).1 3 (by decide) (by decide)⟩
  intro e he
  rcases List.mem_cons.mp he with rfl | he
  · exact ⟨by decide,by decide,by decide,by decide⟩
  · rw [List.mem_singleton.mp he]
    exact ⟨by decide,by decide⟩

end Bfield

end BTRx
