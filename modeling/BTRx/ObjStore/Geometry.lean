import BTRx.Base.Blocks
import BTRx.ObjStore.Cache

/-! # Pieces as blocks of the file

Piece `p` starts at `get_pos(p)`, and the pieces of a file are the blocks of `[0, fsz)`.
The count that `Node` computes is the number of blocks that start inside the file, so no
product of a piece number and the piece size leaves the range of an `int`.
-/
namespace BTRx
open Blocks

section
variable {fsz pcsz p : ℕ}

theorem npcsOf_eq_ceilDiv (hpcsz : 0 < pcsz) : npcsOf fsz pcsz = fsz ⌈/⌉ pcsz := by
  have hdiv := Nat.div_add_mod fsz pcsz
  have hmod := Nat.mod_lt fsz hpcsz
  rw [Nat.ceilDiv_eq_add_pred_div,npcsOf]
  by_cases h : fsz % pcsz = 0
  · rw [if_neg (not_not.mpr h)]
    refine (Nat.div_eq_of_lt_le ?_ ?_).symm
    · rw [Nat.mul_comm]
      omega
    · rw [Nat.succ_mul,Nat.mul_comm]
      omega
  · rw [if_pos h]
    refine (Nat.div_eq_of_lt_le ?_ ?_).symm
    · rw [Nat.succ_mul,Nat.mul_comm]
      omega
    · rw [Nat.succ_mul,Nat.succ_mul,Nat.mul_comm]
      omega

/-- The pieces are the blocks that start inside the file. -/
theorem lt_npcsOf_iff (hpcsz : 0 < pcsz) : p < npcsOf fsz pcsz ↔ p * pcsz < fsz := by
  rw [npcsOf_eq_ceilDiv hpcsz,← not_le,ceilDiv_le_iff_le_smul hpcsz,not_le,smul_eq_mul,Nat.mul_comm]

theorem npcsOf_le (hpcsz : 0 < pcsz) : npcsOf fsz pcsz ≤ fsz := by
  rw [npcsOf_eq_ceilDiv hpcsz,ceilDiv_le_iff_le_smul hpcsz]
  exact Nat.le_mul_of_pos_left fsz hpcsz

end

namespace Cache
variable {c : Cache} {fsz p : ℕ}

/-- The offsets of piece `p` in a file of `fsz` bytes. -/
def pieceRange (c : Cache) (fsz p : ℕ) : Set ℤ := Set.Ico (c.getPos p) (min (c.getPos p + c.pcsz) fsz)

theorem getPos_of_lt (hfsz : fsz < 2 ^ 31) (h : p * c.pcsz < fsz) : c.getPos p = (p * c.pcsz : ℕ) := by
  have hcomm : ((c.pcsz : ℤ) * p) = ((p * c.pcsz : ℕ) : ℤ) := by
    push_cast
    ring
  rw [getPos,hcomm,toInt_of_lt (by omega) (by omega)]

theorem pieceRange_eq_block (hfsz : fsz < 2 ^ 31) (h : p * c.pcsz < fsz) :
    c.pieceRange fsz p = block (fsz : ℤ) c.pcsz p := by
  rw [pieceRange,block,getPos_of_lt hfsz h,nsmul_eq_mul,Nat.cast_mul]

/-- The pieces of a file of `fsz` bytes cut it, in the range of an `int`. -/
structure CutsFile (c : Cache) (fsz : ℕ) : Prop where
  count : npcsOf fsz c.pcsz = fsz ⌈/⌉ c.pcsz ∧ npcsOf fsz c.pcsz < 2 ^ 31
  start : ∀ p < npcsOf fsz c.pcsz, (c.pcsz * p : ℤ) < 2 ^ 31 ∧ c.getPos p = c.pcsz * p ∧ c.getPos p < fsz
  nonempty : ∀ p < npcsOf fsz c.pcsz, (c.pieceRange fsz p).Nonempty
  disjoint : ∀ p < npcsOf fsz c.pcsz, ∀ q < npcsOf fsz c.pcsz, p ≠ q →
    Disjoint (c.pieceRange fsz p) (c.pieceRange fsz q)
  cover : ⋃ p < npcsOf fsz c.pcsz, c.pieceRange fsz p = Set.Ico 0 (fsz : ℤ)
  bits : ∀ hasfile, ∀ p < npcsOf fsz c.pcsz, p / 8 < (Bfield.ofFile hasfile (npcsOf fsz c.pcsz)).bfield.length

/-- For every file size and every piece size. -/
theorem piece_geometry (c : Cache) {fsz : ℕ} (hfsz : fsz < 2 ^ 31) (hpcsz : 1 ≤ c.pcsz) : c.CutsFile fsz := by
  have hstart : ∀ p < npcsOf fsz c.pcsz, p * c.pcsz < fsz := fun p hp => (lt_npcsOf_iff hpcsz).mp hp
  have hblock : ∀ p < npcsOf fsz c.pcsz, c.pieceRange fsz p = block (fsz : ℤ) c.pcsz p :=
    fun p hp => pieceRange_eq_block hfsz (hstart p hp)
  have hpos : (0 : ℤ) < c.pcsz := by exact_mod_cast hpcsz
  refine ⟨⟨npcsOf_eq_ceilDiv hpcsz,(npcsOf_le hpcsz).trans_lt hfsz⟩,fun p hp => ?_,fun p hp => ?_,
    fun p hp q hq hne => ?_,?_,fun hasfile p hp => ?_⟩
  · have hlt := hstart p hp
    have hcast : ((p * c.pcsz : ℕ) : ℤ) = c.pcsz * p := by
      push_cast
      ring
    rw [getPos_of_lt hfsz hlt,hcast]
    omega
  · rw [hblock p hp,block_nonempty hpos,nsmul_eq_mul]
    exact_mod_cast hstart p hp
  · rw [hblock p hp,hblock q hq]
    exact block_disjoint hpos.le hne
  · rw [Set.iUnion₂_congr hblock]
    refine iUnion_block hpos.le ?_
    rw [nsmul_eq_mul]
    -- the first piece that does not exist starts at the end of the file or behind it
    have hend := not_lt.mp fun h => lt_irrefl _ ((@lt_npcsOf_iff fsz c.pcsz _ hpcsz).mpr h)
    exact_mod_cast hend
  · rw [Bfield.ofFile_length]
    omega

/-- A file of three bytes in pieces of two. -/
theorem piece_geometry_three : CutsFile ⟨∅,[],[],⟨[],0⟩,2,2,1⟩ 3 :=
  piece_geometry _ (by decide) (by decide)

end Cache

end BTRx
