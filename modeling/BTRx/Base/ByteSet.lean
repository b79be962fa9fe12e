import BTRx.Base.Outcome

/-! # Byte vectors as sets of positions

A vector of bytes packs eight positions a byte, position `p` in bit `p % 8` of byte
`p / 8`. The lemmas below read the byte operations of the program (a one-bit mask,
exclusive or, the "new bits" expression) as operations on single positions.
-/
namespace BTRx.ByteSet

/-- Bit `j` of a byte. -/
def bit (b : UInt8) (j : ℕ) : Bool := b.toNat.testBit j

/-- The low byte of `1 << j`. -/
def mask (j : ℕ) : UInt8 := UInt8.ofNat (2 ^ j)

/-- Position `p` of a packed vector; positions past the end are absent. -/
def bitAt (v : List UInt8) (p : ℕ) : Bool := bit (v.getD (p / 8) 0) (p % 8)

/-- The vector with position `p` added. -/
def setAt (v : List UInt8) (p : ℕ) : List UInt8 :=
  v.set (p / 8) (v.getD (p / 8) 0 ||| mask (p % 8))

theorem mask_toNat {j : ℕ} (hj : j < 8) : (mask j).toNat = 2 ^ j := by
  interval_cases j <;> rfl

@[simp] theorem bit_zero (j : ℕ) : bit 0 j = false := by simp [bit]

theorem bit_mask {j : ℕ} (hj : j < 8) (k : ℕ) : bit (mask j) k = decide (j = k) := by
  simp [bit,mask_toNat hj,Nat.testBit_two_pow]

@[simp] theorem bit_and (a b : UInt8) (k : ℕ) : bit (a &&& b) k = (bit a k && bit b k) := by
  simp [bit,Nat.testBit_and]

@[simp] theorem bit_or (a b : UInt8) (k : ℕ) : bit (a ||| b) k = (bit a k || bit b k) := by
  simp [bit,Nat.testBit_or]

@[simp] theorem bit_xor (a b : UInt8) (k : ℕ) : bit (a ^^^ b) k = (bit a k ^^ bit b k) := by
  simp [bit,Nat.testBit_xor]

/-- Two bytes with the same bits are equal. -/
theorem byte_ext {a b : UInt8} (h : ∀ k, bit a k = bit b k) : a = b :=
  UInt8.toNat_inj.mp (Nat.eq_of_testBit_eq h)

/-- The masked comparison of the source tests one bit. -/
theorem and_mask_eq {b : UInt8} {j : ℕ} (hj : j < 8) : b &&& mask j = mask j ↔ bit b j = true := by
  constructor
  · intro h
    have hk := congrArg (fun c => bit c j) h
    simpa [bit_mask hj] using hk
  · intro h
    apply byte_ext
    intro k
    by_cases hk : j = k
    · subst k; simp [h,bit_mask hj]
    · simp [bit_mask hj,hk]

theorem and_mask_ne_zero {b : UInt8} {j : ℕ} (hj : j < 8) : b &&& mask j ≠ 0 ↔ bit b j = true := by
  constructor
  · intro h
    by_contra hb
    apply h
    apply byte_ext
    intro k
    by_cases hk : j = k
    · subst k
      have hc : bit b j = false := by simpa using hb
      simp [hc]
    · simp [bit_mask hj,hk]
  · intro h h0
    have hk := congrArg (fun c => bit c j) h0
    simp [bit_mask hj,h] at hk

/-- Exclusive or with an absent bit adds it. -/
theorem xor_mask_of_clear {b : UInt8} {j : ℕ} (hj : j < 8) (h : bit b j = false) :
    b ^^^ mask j = b ||| mask j := by
  apply byte_ext
  intro k
  by_cases hk : j = k
  · subst k; simp [h]
  · simp [bit_mask hj,hk]

/-- `l ^ (l | r)` has exactly the bits of `r` that `l` lacks. -/
theorem bit_xor_or (l r : UInt8) (k : ℕ) :
    bit (l ^^^ (l ||| r)) k = (bit r k && !bit l k) := by
  simp only [bit_xor,bit_or]
  cases bit l k <;> cases bit r k <;> rfl

theorem bitAt_of_length_le {v : List UInt8} {p : ℕ} (h : 8 * v.length ≤ p) : bitAt v p = false := by
  have hp : v.length ≤ p / 8 := by omega
  rw [bitAt,List.getD_eq_default _ _ hp,bit_zero]

theorem lt_of_bitAt {v : List UInt8} {p : ℕ} (h : bitAt v p = true) : p < 8 * v.length := by
  by_contra hp
  simp [bitAt_of_length_le (Nat.le_of_not_lt hp)] at h

theorem bitAt_index (v : List UInt8) (i : ℕ) {j : ℕ} (hj : j < 8) :
    bitAt v (8 * i + j) = bit (v.getD i 0) j := by
  have hd : (8 * i + j) / 8 = i := by omega
  have hm : (8 * i + j) % 8 = j := by omega
  rw [bitAt,hd,hm]

@[simp] theorem bitAt_nil (p : ℕ) : bitAt [] p = false := by simp [bitAt]

@[simp] theorem bitAt_replicate_zero (n p : ℕ) : bitAt (List.replicate n 0) p = false := by
  by_cases h : p / 8 < n
  · simp [bitAt,List.getD_eq_getElem?_getD,h]
  · simp [bitAt,List.getD_eq_getElem?_getD,h]

theorem bitAt_set {v : List UInt8} {i : ℕ} (hi : i < v.length) (b : UInt8) (p : ℕ) :
    bitAt (v.set i b) p = if p / 8 = i then bit b (p % 8) else bitAt v p := by
  by_cases h : p / 8 = i
  · subst i
    simp [bitAt,List.getD_eq_getElem?_getD,hi]
  · simp [bitAt,List.getD_eq_getElem?_getD,h,List.getElem?_set_ne (Ne.symm h)]

theorem bitAt_append (u v : List UInt8) (p : ℕ) :
    bitAt (u ++ v) p = if p < 8 * u.length then bitAt u p else bitAt v (p - 8 * u.length) := by
  by_cases h : p < 8 * u.length
  · have hp : p / 8 < u.length := by omega
    simp [bitAt,h,List.getD_eq_getElem?_getD,List.getElem?_append_left hp]
  · have hp : u.length ≤ p / 8 := by omega
    have hd : (p - 8 * u.length) / 8 = p / 8 - u.length := by omega
    have hm : (p - 8 * u.length) % 8 = p % 8 := by omega
    simp [bitAt,h,List.getD_eq_getElem?_getD,List.getElem?_append_right hp,hd,hm]

@[simp] theorem setAt_length (v : List UInt8) (p : ℕ) : (setAt v p).length = v.length := by
  simp [setAt]

/-- Adding a position in range adds that position and no other. -/
theorem bitAt_setAt {v : List UInt8} {p : ℕ} (hp : p < 8 * v.length) (q : ℕ) :
    bitAt (setAt v p) q = (bitAt v q || decide (p = q)) := by
  have hi : p / 8 < v.length := by omega
  have hj : p % 8 < 8 := by omega
  rw [setAt,bitAt_set hi]
  by_cases h : q / 8 = p / 8
  · have hpq : p % 8 = q % 8 ↔ p = q := by omega
    simp [h,bit_mask hj,hpq,bitAt]
  · have hpq : p ≠ q := by rintro rfl; exact h rfl
    simp [h,hpq]

theorem bitAt_setAt_of_bitAt {v : List UInt8} {p q : ℕ} (hp : p < 8 * v.length)
    (h : bitAt v q = true) : bitAt (setAt v p) q = true := by
  simp [bitAt_setAt hp,h]

/-- Pointwise "new bits" of two vectors of which the second is long enough. -/
theorem bitAt_zipWith_xor_or {l r : List UInt8} (h : l.length ≤ r.length) (p : ℕ) :
    bitAt (List.zipWith (fun a b => a ^^^ (a ||| b)) l r) p =
      (decide (p < 8 * l.length) && bitAt r p && !bitAt l p) := by
  by_cases hp : p < 8 * l.length
  · have hl : p / 8 < l.length := by omega
    have hr : p / 8 < r.length := by omega
    simp only [bitAt,List.getD_eq_getElem?_getD,List.getElem?_zipWith,List.getElem?_eq_getElem hl,
      List.getElem?_eq_getElem hr,Option.getD_some,bit_xor_or,hp,decide_true,Bool.true_and]
  · have hn : 8 * (List.zipWith (fun a b => a ^^^ (a ||| b)) l r).length ≤ p := by
      simp only [List.length_zipWith]
      omega
    simp [bitAt_of_length_le hn,hp]

end BTRx.ByteSet
