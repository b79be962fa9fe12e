import BTRx.NbrMap.NbrMap

/-! # The contract of earmark

The loop of `earmark` visits the bits of `diff` in increasing order. Each set bit is
either claimed or dropped from `diff`, and `ret` is overwritten every time, so that the
returned flag tells what became of the largest new piece.
-/
namespace BTRx
open ByteSet

theorem positions_pieceAt (n : ℕ) : (positions n).map pieceAt = List.range (8 * n) := by
  induction n with
  | zero => rfl
  | succ n ih =>
    have hlast : positions (n + 1) = positions n ++ (List.range 8).map (fun j => (n,j)) := by
      simp [positions,List.range_succ (n := n)]
    rw [hlast,List.map_append,ih,Nat.mul_add,List.range_add,List.map_map]
    rfl

namespace Earmarking

/-- What the turns at `todo` have done: the earmarks that were set leave `diff`, the others
are set, and the flag is that of the last set bit. -/
structure Done (todo : List (ℕ × ℕ)) (e e' : Earmarking) : Prop where
  diff : ∀ q, bitAt e'.diff q = true ↔
    bitAt e.diff q = true ∧ ¬ (q ∈ todo.map pieceAt ∧ bitAt e.bfield.bfield q = true)
  marks : ∀ q, bitAt e'.bfield.bfield q = true ↔
    bitAt e.bfield.bfield q = true ∨ q ∈ todo.map pieceAt ∧ bitAt e.diff q = true
  idle : (∀ p ∈ todo.map pieceAt, bitAt e.diff p = false) → e'.ret = e.ret
  last : ∀ p ∈ todo.map pieceAt, bitAt e.diff p = true →
    (∀ q ∈ todo.map pieceAt, bitAt e.diff q = true → q ≤ p) → e'.ret = !bitAt e.bfield.bfield p

/-- One turn, as the claims of a single piece. -/
structure Turned (p : ℕ) (e e₁ : Earmarking) : Prop where
  length : e₁.diff.length = e.diff.length
  diff : ∀ q, bitAt e₁.diff q = true ↔
    bitAt e.diff q = true ∧ ¬ (q = p ∧ bitAt e.bfield.bfield q = true)
  marks : ∀ q, bitAt e₁.bfield.bfield q = true ↔
    bitAt e.bfield.bfield q = true ∨ q = p ∧ bitAt e.diff q = true
  ret : e₁.ret = if bitAt e.diff p then !bitAt e.bfield.bfield p else e.ret

theorem turned_of_turn {e e₁ : Earmarking} {ij : ℕ × ℕ} (hi : ij.1 < e.diff.length) (hj : ij.2 < 8)
    (h : e.turn ij = .ok e₁) : Turned (pieceAt ij) e e₁ := by
  rcases turn_cases hi hj h with ⟨hd,rfl⟩ | ⟨hd,hm,hb,hr,hl,hq⟩ | ⟨hd,hm,hlt,rfl⟩
  · refine ⟨rfl,fun q => ?_,fun q => ?_,by rw [hd]; rfl⟩
    · constructor
      · intro hq
        refine ⟨hq,?_⟩
        rintro ⟨rfl,_⟩
        rw [hd] at hq
        cases hq
      · exact And.left
    · constructor
      · exact Or.inl
      · rintro (hq | ⟨rfl,hq⟩)
        · exact hq
        · rw [hd] at hq
          cases hq
  · refine ⟨hl,fun q => ?_,fun q => ?_,by rw [hd,hm,hr]; rfl⟩
    · rw [hq,Bool.and_eq_true,decide_eq_true_iff]
      apply and_congr_right
      intro _
      constructor
      · rintro hne ⟨rfl,_⟩
        exact hne rfl
      · rintro hno rfl
        exact hno ⟨rfl,hm⟩
    · rw [hb]
      constructor
      · exact Or.inl
      · rintro (hq | ⟨rfl,_⟩)
        · exact hq
        · exact hm
  · refine ⟨rfl,fun q => ?_,fun q => ?_,by simp [hd,hm]⟩
    · constructor
      · intro hq
        refine ⟨hq,?_⟩
        rintro ⟨rfl,hm'⟩
        rw [hm] at hm'
        cases hm'
      · exact And.left
    · rw [bitAt_setAt hlt,Bool.or_eq_true,decide_eq_true_iff]
      apply or_congr_right
      constructor
      · rintro rfl
        exact ⟨rfl,hd⟩
      · exact fun hq => hq.1.symm

/-- A turn and the turns after it, which are at larger positions. -/
theorem Turned.cons {ij : ℕ × ℕ} {todo : List (ℕ × ℕ)} {e e₁ e' : Earmarking}
    (h₁ : Turned (pieceAt ij) e e₁) (h : Done todo e₁ e')
    (hlt : ∀ q ∈ todo.map pieceAt, pieceAt ij < q) : Done (ij :: todo) e e' := by
  have hdiff : ∀ q ∈ todo.map pieceAt, bitAt e₁.diff q = bitAt e.diff q := by
    intro q hq
    rw [Bool.eq_iff_iff,h₁.diff]
    exact and_iff_left fun hq' => absurd hq'.1 (hlt q hq).ne'
  have hmarks : ∀ q ∈ todo.map pieceAt, bitAt e₁.bfield.bfield q = bitAt e.bfield.bfield q := by
    intro q hq
    rw [Bool.eq_iff_iff,h₁.marks]
    exact or_iff_left fun hq' => absurd hq'.1 (hlt q hq).ne'
  refine ⟨fun q => ?_,fun q => ?_,fun hall => ?_,fun p hp hset hmax => ?_⟩
  · rw [h.diff,h₁.diff,List.map_cons,List.mem_cons,and_assoc]
    apply and_congr_right
    intro _
    constructor
    · rintro ⟨hno,hno'⟩ ⟨rfl | hq,hm⟩
      · exact hno ⟨rfl,hm⟩
      · exact hno' ⟨hq,(hmarks q hq).trans hm⟩
    · intro hno
      refine ⟨fun hq => hno ⟨Or.inl hq.1,hq.2⟩,fun hq => hno ⟨Or.inr hq.1,?_⟩⟩
      exact (hmarks q hq.1).symm.trans hq.2
  · rw [h.marks,h₁.marks,List.map_cons,List.mem_cons,or_assoc]
    apply or_congr_right
    constructor
    · rintro (⟨hq,hd⟩ | ⟨hq,hd⟩)
      · exact ⟨Or.inl hq,hd⟩
      · exact ⟨Or.inr hq,(hdiff q hq).symm.trans hd⟩
    · rintro ⟨hq | hq,hd⟩
      · exact Or.inl ⟨hq,hd⟩
      · exact Or.inr ⟨hq,(hdiff q hq).trans hd⟩
  · obtain ⟨hhead,htail⟩ := List.forall_mem_cons.mp hall
    have hidle := h.idle fun q hq => (hdiff q hq).trans (htail q hq)
    rw [hidle,h₁.ret,hhead]
    rfl
  · rcases List.mem_cons.mp hp with rfl | hp
    · -- nothing after the largest set bit is set
      have hidle := h.idle fun q hq => by
        rw [hdiff q hq,Bool.eq_false_iff]
        intro hd
        have hle := hmax q (List.mem_cons_of_mem _ hq) hd
        exact absurd (hlt q hq) (Nat.not_lt.mpr hle)
      rw [hidle,h₁.ret,hset]
      rfl
    · have hlast := h.last p hp ((hdiff p hp).trans hset) fun q hq hd =>
        hmax q (List.mem_cons_of_mem _ hq) ((hdiff q hq).symm.trans hd)
      rw [hlast,hmarks p hp]

theorem done_of_foldlM {todo : List (ℕ × ℕ)} {e e' : Earmarking}
    (hsort : (todo.map pieceAt).Pairwise (· < ·))
    (hin : ∀ ij ∈ todo, ij.1 < e.diff.length ∧ ij.2 < 8) (h : todo.foldlM turn e = .ok e') :
    Done todo e e' := by
  induction todo generalizing e with
  | nil =>
    cases h
    exact ⟨by simp,by simp,fun _ => rfl,fun p hp => absurd hp List.not_mem_nil⟩
  | cons ij todo ih =>
    rw [List.foldlM_cons] at h
    obtain ⟨e₁,h₁,h⟩ := Outcome.bind_eq_ok.mp h
    obtain ⟨⟨hi,hj⟩,hin⟩ := List.forall_mem_cons.mp hin
    obtain ⟨hlt,hsort⟩ := List.pairwise_cons.mp hsort
    have hturn := turned_of_turn hi hj h₁
    exact hturn.cons (ih hsort (fun kl hkl => by rw [hturn.length]; exact hin kl hkl) h) hlt

end Earmarking

namespace NbrMap

/-- The pieces of `peer` that `own` lacks. -/
def New (own peer : List UInt8) (p : ℕ) : Prop := bitAt peer p = true ∧ bitAt own p = false

/-- Every new piece that was not marked is left in `diff`, all new pieces are marked, and
the flag tells whether `diff` has a piece. -/
def EarmarkContract (m : NbrMap) (own : Bfield) (peer : List UInt8) : Prop :=
  ∃ ret diff m', m.earmark own peer [] = .ok (ret,diff,m') ∧
    (∀ p, bitAt diff p = true ↔ New own.bfield peer p ∧ bitAt m.bfield.bfield p = false) ∧
    (∀ p, bitAt m'.bfield.bfield p = true ↔
      bitAt m.bfield.bfield p = true ∨ New own.bfield peer p) ∧
    (ret = true ↔ ∃ p, bitAt diff p = true)

/-- The largest new piece is not marked, or all new pieces are. -/
def LargestFree (m : NbrMap) (own : Bfield) (peer : List UInt8) : Prop :=
  (∀ p, New own.bfield peer p → (∀ q, New own.bfield peer q → q ≤ p) →
    bitAt m.bfield.bfield p = false) ∨
  ∀ p, New own.bfield peer p → bitAt m.bfield.bfield p = true

/-- A set of positions of a vector has a largest member. -/
theorem exists_largest {P : ℕ → Prop} {n : ℕ} (hn : ∀ p, P p → p < n) {p : ℕ} (hp : P p) :
    ∃ m, P m ∧ ∀ q, P q → q ≤ m := by
  classical
  refine ⟨Nat.findGreatest P n,Nat.findGreatest_spec (hn p hp).le hp,fun q hq => ?_⟩
  exact Nat.le_findGreatest (hn q hq).le hq

/-- What `earmark` leaves, with its flag in terms of the largest new piece. -/
theorem earmark_eq {m : NbrMap} {own : Bfield} {peer : List UInt8}
    (hpeer : peer.length = own.bfield.length) (hmarks : own.bfield.length ≤ m.bfield.bfield.length) :
    ∃ ret diff m', m.earmark own peer [] = .ok (ret,diff,m') ∧
      (∀ p, bitAt diff p = true ↔ New own.bfield peer p ∧ bitAt m.bfield.bfield p = false) ∧
      (∀ p, bitAt m'.bfield.bfield p = true ↔
        bitAt m.bfield.bfield p = true ∨ New own.bfield peer p) ∧
      ((∀ p, ¬ New own.bfield peer p) → ret = false) ∧
      ∀ p, New own.bfield peer p → (∀ q, New own.bfield peer q → q ≤ p) →
        ret = !bitAt m.bfield.bfield p := by
  have hnew : ∀ p, bitAt (newBits own.bfield peer []) p = true ↔ New own.bfield peer p := by
    intro p
    rw [bitAt_newBits hpeer.ge,New]
    simp only [Bool.and_eq_true,decide_eq_true_iff,Bool.not_eq_true']
    exact ⟨fun h => ⟨h.1.2,h.2⟩,fun h => ⟨⟨hpeer ▸ lt_of_bitAt h.1,h.1⟩,h.2⟩⟩
  have hlen : (newBits own.bfield peer []).length = own.bfield.length := by
    simp [newBits,hpeer]
  have hfit : m.EarmarkFits own.bfield peer [] := by
    refine ⟨hpeer.ge,fun p hp => ?_⟩
    have hlt := lt_of_bitAt hp
    omega
  obtain ⟨ret,diff,bfield,hret,_⟩ := NbrMap.earmark_of_fits hfit
  have hloop := hret
  rw [NbrMap.earmark,Bfield.diff_of_le hpeer.ge,Outcome.ok_bind] at hloop
  obtain ⟨e,he,hloop⟩ := Outcome.bind_eq_ok.mp hloop
  cases hloop
  have hsort : ((positions (newBits own.bfield peer []).length).map pieceAt).Pairwise (· < ·) := by
    rw [positions_pieceAt]
    exact List.pairwise_lt_range
  have hdone := Earmarking.done_of_foldlM (e := ⟨m.bfield,newBits own.bfield peer [],false⟩) hsort
    (fun ij hij => mem_positions.mp hij) he
  have hmem : ∀ p, New own.bfield peer p →
      p ∈ (positions (newBits own.bfield peer []).length).map pieceAt := by
    intro p hp
    rw [positions_pieceAt,List.mem_range]
    exact lt_of_bitAt ((hnew p).mpr hp)
  refine ⟨_,_,_,hret,fun p => ?_,fun p => ?_,fun hno => ?_,fun p hp hmax => ?_⟩
  · rw [hdone.diff,hnew]
    apply and_congr_right
    intro hp
    simp [hmem p hp]
  · rw [hdone.marks]
    apply or_congr_right
    exact ⟨fun h => (hnew p).mp h.2,fun h => ⟨hmem p h,(hnew p).mpr h⟩⟩
  · exact hdone.idle fun p _ => Bool.eq_false_iff.mpr fun hp => hno p ((hnew p).mp hp)
  · exact hdone.last p (hmem p hp) ((hnew p).mpr hp) fun q _ hq => hmax q ((hnew q).mp hq)

/-- `earmark` keeps its contract exactly when the flag of the last turn happens to agree
with the others. -/
theorem earmark_contract_iff {m : NbrMap} {own : Bfield} {peer : List UInt8}
    (hpeer : peer.length = own.bfield.length) (hmarks : own.bfield.length ≤ m.bfield.bfield.length) :
    m.EarmarkContract own peer ↔ m.LargestFree own peer := by
  obtain ⟨ret,diff,m',hret,hdiff,hset,hnone,hlast⟩ := earmark_eq hpeer hmarks
  have hflag : m.EarmarkContract own peer ↔ (ret = true ↔ ∃ p, bitAt diff p = true) := by
    constructor
    · rintro ⟨ret',diff',n,h,_,_,hr⟩
      rw [hret] at h
      cases h
      exact hr
    · exact fun hr => ⟨ret,diff,m',hret,hdiff,hset,hr⟩
  have hsome : (∃ p, bitAt diff p = true) ↔
      ∃ p, New own.bfield peer p ∧ bitAt m.bfield.bfield p = false := exists_congr hdiff
  rw [hflag,hsome]
  by_cases hany : ∃ p, New own.bfield peer p
  · obtain ⟨p₀,hp₀⟩ := hany
    have hbound : ∀ p, New own.bfield peer p → p < 8 * peer.length := fun p hp => lt_of_bitAt hp.1
    obtain ⟨p,hp,hmax⟩ := exists_largest hbound hp₀
    have hr := hlast p hp hmax
    have hunique : ∀ q, New own.bfield peer q → (∀ r, New own.bfield peer r → r ≤ q) → q = p :=
      fun q hq hq' => le_antisymm (hmax q hq) (hq' p hp)
    rw [hr,Bool.not_eq_true']
    constructor
    · intro h
      by_cases hfree : bitAt m.bfield.bfield p = false
      · left
        intro q hq hq'
        rw [hunique q hq hq',hfree]
      · right
        intro q hq
        rw [← Bool.not_eq_false]
        exact fun hq' => hfree (h.mpr ⟨q,hq,hq'⟩)
    · rintro (h | h)
      · exact ⟨fun hfree => ⟨p,hp,hfree⟩,fun _ => h p hp hmax⟩
      · constructor
        · intro hfree
          rw [h p hp] at hfree
          cases hfree
        · rintro ⟨q,hq,hq'⟩
          rw [h q hq] at hq'
          cases hq'
  · rw [not_exists] at hany
    rw [hnone hany]
    constructor
    · exact fun _ => Or.inr fun p hp => absurd hp (hany p)
    · intro _
      constructor
      · exact nofun
      · rintro ⟨p,hp,_⟩
        exact absurd hp (hany p)

/-- Two new pieces of which the larger is free. -/
theorem earmark_contract_two : EarmarkContract ⟨0,[],∅,[],⟨[1,0]⟩⟩ ⟨[0]⟩ [3] := by
  have hpeer : [(3 : UInt8)].length = (⟨[0]⟩ : Bfield).bfield.length := rfl
  have hmarks : (⟨[0]⟩ : Bfield).bfield.length ≤
      (⟨0,[],∅,[],⟨[1,0]⟩⟩ : NbrMap).bfield.bfield.length := by decide
  refine (earmark_contract_iff hpeer hmarks).mpr (Or.inl ?_)
  intro p hp hmax
  have hp' : p < 8 := lt_of_bitAt hp.1
  have h1 := hmax 1 ⟨rfl,rfl⟩
  interval_cases p <;> first | omega | rfl

/-- Two new pieces of which the larger was marked before: the smaller is claimed, and the
call returns `false`. -/
theorem earmark_contract_fails : ¬ EarmarkContract ⟨0,[],∅,[],⟨[2,0]⟩⟩ ⟨[0]⟩ [3] := by
  rintro ⟨ret,diff,m',h,_,_,hret⟩
  have heq : NbrMap.earmark ⟨0,[],∅,[],⟨[2,0]⟩⟩ ⟨[0]⟩ [3] [] =
    .ok (false,[1],⟨0,[],∅,[],⟨[3,0]⟩⟩) := rfl
  rw [heq] at h
  cases h
  exact absurd (hret.mpr ⟨0,rfl⟩) (by decide)

end NbrMap

end BTRx
