import Mathlib

/-! # Cutting an interval into blocks

`[0, n)` is cut into blocks of `k`, of which the last one ends where the interval ends. A
block is not empty exactly when it starts inside; the blocks are disjoint, and as many of
them as reach the end make up the interval.
-/
namespace BTRx.Blocks
variable {α : Type*} [AddCommMonoid α] [LinearOrder α] [IsOrderedCancelAddMonoid α] {n k : α} {p q : ℕ}

/-- Block `p` of `[0, n)`. -/
def block (n k : α) (p : ℕ) : Set α := Set.Ico (p • k) (min (p • k + k) n)

omit [IsOrderedCancelAddMonoid α] in
theorem mem_block {x : α} : x ∈ block n k p ↔ p • k ≤ x ∧ x < p • k + k ∧ x < n := by
  rw [block,Set.mem_Ico,lt_min_iff]

theorem block_nonempty (hk : 0 < k) : (block n k p).Nonempty ↔ p • k < n := by
  rw [block,Set.nonempty_Ico,lt_min_iff]
  exact and_iff_right (lt_add_of_pos_right _ hk)

/-- A block ends before each later one starts. -/
theorem end_le (hk : 0 ≤ k) (h : p < q) : p • k + k ≤ q • k := by
  rw [← succ_nsmul]
  exact nsmul_le_nsmul_left hk h

theorem block_disjoint (hk : 0 ≤ k) (h : p ≠ q) : Disjoint (block n k p) (block n k q) := by
  rw [Set.disjoint_left]
  intro x hp hq
  obtain ⟨hp1,hp2,_⟩ := mem_block.mp hp
  obtain ⟨hq1,hq2,_⟩ := mem_block.mp hq
  rcases Nat.lt_or_gt_of_ne h with h | h
  · exact absurd (hp2.trans_le ((end_le hk h).trans hq1)) (lt_irrefl x)
  · exact absurd (hq2.trans_le ((end_le hk h).trans hp1)) (lt_irrefl x)

/-- Blocks that reach the end of the interval cover it. -/
theorem iUnion_block (hk : 0 ≤ k) {m : ℕ} (hm : n ≤ m • k) : ⋃ p < m, block n k p = Set.Ico 0 n := by
  ext x
  simp only [Set.mem_iUnion,mem_block,Set.mem_Ico]
  constructor
  · rintro ⟨p,_,hp,_,hn⟩
    exact ⟨(nsmul_nonneg hk p).trans hp,hn⟩
  · rintro ⟨h0,hn⟩
    -- the first multiple past `x` ends the block of `x`
    have hex : ∃ p : ℕ, x < p • k := ⟨m,hn.trans_le hm⟩
    have hpos : Nat.find hex ≠ 0 := by
      intro hz
      have hfind := Nat.find_spec hex
      rw [hz,zero_nsmul] at hfind
      exact absurd h0 hfind.not_ge
    obtain ⟨p,hp⟩ := Nat.exists_eq_succ_of_ne_zero hpos
    have hlt : x < p • k + k := by
      rw [← succ_nsmul,← Nat.succ_eq_add_one,← hp]
      exact Nat.find_spec hex
    have hle : p • k ≤ x := not_lt.mp (Nat.find_min hex (by omega))
    have hmin : Nat.find hex ≤ m := Nat.find_min' hex (hn.trans_le hm)
    exact ⟨p,by omega,hle,hlt,hn⟩

end BTRx.Blocks
