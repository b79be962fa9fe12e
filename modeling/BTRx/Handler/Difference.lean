import BTRx.Handler.Turn
import BTRx.ObjStore.Flips

/-! # The requests of a bitfield are a set difference

`Bfield::diff` keeps the bits that the own bitfield lacks, and `diff_to_reqs` turns them
into keys. A key is a `uint32_t` and the argument of `exists` is an `int`, so the two agree
for bitfields whose positions fit into an `int`.
-/
namespace BTRx
open ByteSet

namespace Session

/-- The keys of `reqs` as numbers. -/
def requested (reqs : Reqs) : Set ℕ := {p | ∃ q ∈ reqs, q.toNat = p}

/-- The positions of two bitfields that `right` has and `left` has not, as `exists` tells. -/
def lacking (left right : Bfield) : Set ℕ :=
  {p | p < 8 * left.bfield.length ∧ right.exists (toInt p) = .ok true ∧ left.exists (toInt p) = .ok false}

variable {left right : Bfield}

/-- The keys that `diff_to_reqs` makes of the bits of `diff`. -/
theorem mem_requested {diff : List UInt8} {p : ℕ} : p ∈ requested (diffToReqs ∅ diff) ↔
    ∃ k, bitAt diff k = true ∧ k % 2 ^ 32 = p := by
  simp only [requested,Set.mem_ofPred_eq,mem_diffToReqs,AList.notMem_empty,false_or]
  constructor
  · rintro ⟨q,⟨k,hk,rfl⟩,rfl⟩
    exact ⟨k,hk,(UInt32.toNat_ofNat').symm⟩
  · rintro ⟨k,hk,rfl⟩
    exact ⟨_,⟨k,hk,rfl⟩,UInt32.toNat_ofNat'⟩

/-- Of two vectors of one length, `diff` computes the difference of the sets. -/
theorem diff_empty (hlen : left.bfield.length = right.bfield.length) :
    ∃ diff, left.diff right.bfield [] = .ok diff ∧ ∀ p, bitAt diff p = true ↔
      p < 8 * left.bfield.length ∧ bitAt right.bfield p = true ∧ bitAt left.bfield p = false := by
  refine ⟨_,Bfield.diff_of_le hlen.le [],fun p => ?_⟩
  rw [List.nil_append,bitAt_zipWith_xor_or hlen.le]
  simp [and_assoc]

/-- For every two bitfields of one length up to `2 ^ 28` bytes. -/
theorem requested_eq_lacking (hlen : left.bfield.length = right.bfield.length)
    (hsize : left.bfield.length ≤ 2 ^ 28) : ∃ diff, left.diff right.bfield [] = .ok diff ∧
      requested (diffToReqs ∅ diff) = lacking left right := by
  obtain ⟨diff,hdiff,hbits⟩ := diff_empty hlen
  refine ⟨diff,hdiff,?_⟩
  have hexists : ∀ p, p < 8 * left.bfield.length → toInt p = p := fun p hp => toInt_of_lt (by omega) (by omega)
  ext p
  rw [mem_requested,lacking,Set.mem_ofPred_eq]
  constructor
  · rintro ⟨k,hk,rfl⟩
    obtain ⟨hlt,hr,hl⟩ := (hbits k).mp hk
    rw [Nat.mod_eq_of_lt (by omega),hexists k hlt,Bfield.exists_of_lt (by omega),Bfield.exists_of_lt hlt,hr,hl]
    exact ⟨hlt,rfl,rfl⟩
  · rintro ⟨hlt,hr,hl⟩
    rw [hexists p hlt,Bfield.exists_of_lt (by omega),Except.ok.injEq] at hr
    rw [hexists p hlt,Bfield.exists_of_lt hlt,Except.ok.injEq] at hl
    exact ⟨p,(hbits p).mpr ⟨hlt,hr,hl⟩,Nat.mod_eq_of_lt (by omega)⟩

/-- Two bitfields of a byte. -/
theorem requested_eq_lacking_byte : ∃ diff, (⟨[1]⟩ : Bfield).diff [3] [] = .ok diff ∧
    requested (diffToReqs ∅ diff) = lacking ⟨[1]⟩ ⟨[3]⟩ :=
  requested_eq_lacking rfl (by decide)

/-- The last bit of a vector of `n + 1` bytes, alone. -/
theorem bitAt_last (n : ℕ) : bitAt (List.replicate n 0 ++ [1]) (8 * n) = true := by
  rw [bitAt_append,List.length_replicate,if_neg (lt_irrefl _),Nat.sub_self]
  rfl

theorem requested_ne_lacking_of_wide {n : ℕ} (hn : 8 * n = 2 ^ 31) :
    ∃ diff, (⟨List.replicate (n + 1) 0⟩ : Bfield).diff (List.replicate n 0 ++ [1]) [] = .ok diff ∧
      requested (diffToReqs ∅ diff) ≠ lacking ⟨List.replicate (n + 1) 0⟩ ⟨List.replicate n 0 ++ [1]⟩ := by
  have hlen : (List.replicate (n + 1) (0 : UInt8)).length = (List.replicate n (0 : UInt8) ++ [1]).length := by
    simp
  obtain ⟨diff,hdiff,hbits⟩ := @diff_empty ⟨List.replicate (n + 1) 0⟩ ⟨List.replicate n 0 ++ [1]⟩ hlen
  refine ⟨diff,hdiff,fun heq => ?_⟩
  have hmem : 8 * n ∈ requested (diffToReqs ∅ diff) := by
    refine mem_requested.mpr ⟨8 * n,(hbits _).mpr ⟨?_,bitAt_last n,bitAt_replicate_zero _ _⟩,?_⟩
    · simp
    · rw [hn]
      rfl
  -- as an `int` the position is negative
  have hneg : toInt ((8 * n : ℕ) : ℤ) < 0 := by
    rw [hn]
    decide
  obtain ⟨f,_,hf⟩ := Bfield.exists_of_neg (b := ⟨List.replicate n 0 ++ [1]⟩) hneg
  rw [heq,lacking,Set.mem_ofPred_eq,hf] at hmem
  cases hmem.2.1

/-- With one byte more there is a key that `exists` cannot be asked for. -/
theorem requested_ne_lacking : ∃ diff,
    (⟨List.replicate (2 ^ 28 + 1) 0⟩ : Bfield).diff (List.replicate (2 ^ 28) 0 ++ [1]) [] = .ok diff ∧
      requested (diffToReqs ∅ diff) ≠
        lacking ⟨List.replicate (2 ^ 28 + 1) 0⟩ ⟨List.replicate (2 ^ 28) 0 ++ [1]⟩ :=
  requested_ne_lacking_of_wide (by norm_num)

end Session

end BTRx
