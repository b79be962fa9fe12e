import BTRx.Base.Outcome

/-! # Little-endian numbers

`le k n` is the number `n` in `k` bytes, least significant byte first, and `ofLE` reads a
byte string back. A reader that sees only part of a number, or sees it padded with
zeros, gets a remainder of it.
-/
namespace BTRx.LittleEndian

abbrev Bytes := List UInt8

def le : ℕ → ℕ → Bytes
  | 0, _ => []
  | k + 1, n => UInt8.ofNat n :: le k (n / 256)

def ofLE : Bytes → ℕ
  | [] => 0
  | b :: bs => b.toNat + 256 * ofLE bs

/-- The signed reading of a number of `k` bytes. -/
def signed (k n : ℕ) : ℤ := if 2 * n < 256 ^ k then n else n - 256 ^ k

/-- The two's complement pattern of a signed number in `k` bytes. -/
def unsigned (k : ℕ) (i : ℤ) : ℕ := (i % 256 ^ k).toNat

@[simp] theorem le_length (k n : ℕ) : (le k n).length = k := by
  induction k generalizing n with
  | zero => rfl
  | succ k ih => simp [le,ih]

theorem ofLE_lt (bs : Bytes) : ofLE bs < 256 ^ bs.length := by
  induction bs with
  | nil => simp [ofLE]
  | cons b bs ih =>
    have hb := b.toNat_lt
    simp only [ofLE,List.length_cons,pow_succ]
    omega

theorem ofLE_le (k n : ℕ) : ofLE (le k n) = n % 256 ^ k := by
  induction k generalizing n with
  | zero => simp [le,ofLE,Nat.mod_one]
  | succ k ih =>
    have hm : n % 256 ^ (k + 1) = n % 256 + 256 * (n / 256 % 256 ^ k) := by
      rw [pow_succ',Nat.mod_mul]
    simp only [le,ofLE,ih,hm,UInt8.toNat_ofNat']

theorem ofLE_append (as bs : Bytes) : ofLE (as ++ bs) = ofLE as + 256 ^ as.length * ofLE bs := by
  induction as with
  | nil => simp [ofLE]
  | cons a as ih =>
    simp only [List.cons_append,ofLE,ih,List.length_cons,pow_succ]
    ring

@[simp] theorem ofLE_zeros (k : ℕ) : ofLE (List.replicate k 0) = 0 := by
  induction k with
  | zero => rfl
  | succ k ih => simp [List.replicate_succ,ofLE,ih]

/-- The first `k` bytes of a number, zero padded, read as a remainder of it. -/
theorem ofLE_take (bs : Bytes) (k m : ℕ) (hk : k ≤ bs.length) :
    ofLE (bs.take k ++ List.replicate m 0) = ofLE bs % 256 ^ k := by
  have hlen : (bs.take k).length = k := by
    rw [List.length_take]
    omega
  have hlt := ofLE_lt (bs.take k)
  rw [hlen] at hlt
  have hsplit : ofLE bs = ofLE (bs.take k) + 256 ^ k * ofLE (bs.drop k) := by
    have h := ofLE_append (bs.take k) (bs.drop k)
    rwa [List.take_append_drop,hlen] at h
  rw [ofLE_append,ofLE_zeros,hsplit,Nat.add_mul_mod_self_left,Nat.mod_eq_of_lt hlt]
  simp

/-- A signed number survives its two's complement pattern. -/
theorem signed_unsigned {k : ℕ} {i : ℤ} (hlo : -(256 : ℤ) ^ k ≤ 2 * i) (hhi : 2 * i < 256 ^ k) :
    signed k (unsigned k i) = i := by
  have hpos : (0 : ℤ) < 256 ^ k := by positivity
  have hnn := Int.emod_nonneg i hpos.ne'
  have hlt := Int.emod_lt_of_pos i hpos
  have hcast : ((unsigned k i : ℕ) : ℤ) = i % 256 ^ k := Int.toNat_of_nonneg hnn
  have htest : 2 * unsigned k i < 256 ^ k ↔ 2 * (i % 256 ^ k) < 256 ^ k := by
    rw [← hcast]
    norm_cast
  unfold signed
  by_cases hi : 0 ≤ i
  · have he : i % 256 ^ k = i := Int.emod_eq_of_lt hi (by omega)
    rw [if_pos (htest.mpr (by omega)),hcast,he]
  · have he : i % 256 ^ k = i + 256 ^ k := by
      rw [← Int.add_emod_right i (256 ^ k : ℤ),Int.emod_eq_of_lt (by omega) (by omega)]
    rw [if_neg (fun h => by have := htest.mp h; omega),hcast,he]
    ring

theorem unsigned_lt (k : ℕ) (i : ℤ) : unsigned k i < 256 ^ k := by
  have hpos : (0 : ℤ) < 256 ^ k := by positivity
  have hnn := Int.emod_nonneg i hpos.ne'
  have hlt := Int.emod_lt_of_pos i hpos
  have hcast : ((unsigned k i : ℕ) : ℤ) = i % 256 ^ k := Int.toNat_of_nonneg hnn
  exact_mod_cast hcast ▸ hlt

end BTRx.LittleEndian
