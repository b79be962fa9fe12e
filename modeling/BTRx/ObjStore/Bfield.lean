import BTRx.Base.ByteSet

/-! # The packed bitfield of a node

`Bfield` is used in two ways: packed, as the set of pieces a node holds, and inside the
neighbour map, where it has one byte for every piece and is addressed by byte and bit.
Every operation indexes a vector without a check, so each one returns a fault where the
index is outside. The locks only delimit the single operations and are left out.
-/
namespace BTRx
open ByteSet

/-- `v[i]` on a `vector<uint8_t>`. -/
def index (v : List UInt8) (i : ℤ) : Except Fault UInt8 :=
  if 0 ≤ i ∧ i < v.length then .ok (v.getD i.toNat 0) else .error .outOfRange

/-- `(uint8_t)(1 << k)`; a negative count is undefined. -/
def shiftOne (k : ℤ) : Except Fault UInt8 :=
  if 0 ≤ k then .ok (mask k.toNat) else .error .badShift

structure Bfield where
  bfield : List UInt8
  deriving DecidableEq, Repr

/-- `Bfield(bool hasfile, bool needlock, int npcs)`, the bitfield of a store. -/
def Bfield.ofFile (hasfile : Bool) (npcs : ℕ) : Bfield :=
  let wholes := npcs / 8
  let lftovr := npcs % 8
  let whole : List UInt8 := List.replicate wholes (if hasfile then 1 else 0)
  let full : UInt8 := (List.range 8).foldl (fun m i => m ^^^ mask i) 0
  ⟨if lftovr ≠ 0 then whole ++ [if hasfile then full else 0] else whole⟩

/-- `Bfield(bool needlock, int npcs)`, the earmarks of a neighbour map: `npcs` bytes. -/
def Bfield.ofCount (npcs : ℕ) : Bfield := ⟨List.replicate npcs 0⟩

/-- `Bfield::exists(int pos)`. -/
def Bfield.exists (b : Bfield) (pos : ℤ) : Except Fault Bool := do
  let wholes := pos.tdiv 8
  let lftovr := pos.tmod 8
  let m ← shiftOne lftovr
  let byte ← index b.bfield wholes
  return byte &&& m != 0

/-- `Bfield::flip(int wholes, int lftover)`. -/
def Bfield.flipAt (b : Bfield) (wholes lftover : ℤ) : Except Fault (Bool × Bfield) := do
  let m ← shiftOne lftover
  let byte ← index b.bfield wholes
  if byte &&& m ≠ m then
    return (true,⟨b.bfield.set wholes.toNat (byte ^^^ m)⟩)
  else
    return (false,b)

/-- `Bfield::flip(int pcno)`. -/
def Bfield.flip (b : Bfield) (pcno : ℤ) : Except Fault Bfield := do
  let wholes := pcno.tdiv 8
  let lftover := pcno.tmod 8
  let m ← shiftOne lftover
  let byte ← index b.bfield wholes
  if byte &&& m ≠ m then
    return ⟨b.bfield.set wholes.toNat (byte ^^^ m)⟩
  else
    return b

/-- `Bfield::diff(right, diff)` appends to `diff` the bits of `right` that are new. -/
def Bfield.diff (b : Bfield) (right diff : List UInt8) : Except Fault (List UInt8) :=
  (List.range b.bfield.length).foldlM (fun diff (i : ℕ) => do
    let l ← index b.bfield i
    let r ← index right i
    return diff ++ [l ^^^ (l ||| r)]) diff

/-- `Bfield::clone(vec)`. -/
def Bfield.clone (b : Bfield) : List UInt8 := b.bfield

/-! ## One specification for each operation -/

theorem index_natCast (v : List UInt8) (i : ℕ) :
    index v i = if i < v.length then .ok (v.getD i 0) else .error .outOfRange := by
  simp [index]

theorem shiftOne_natCast (k : ℕ) : shiftOne k = .ok (mask k) := by simp [shiftOne]

theorem index_of_lt {v : List UInt8} {i : ℕ} (h : i < v.length) : index v i = .ok (v.getD i 0) := by
  rw [index_natCast,if_pos h]

theorem natCast_tdiv_eight (p : ℕ) : (p : ℤ).tdiv 8 = ((p / 8 : ℕ) : ℤ) := by
  rw [Int.tdiv_eq_ediv_of_nonneg (by omega)]
  omega

theorem natCast_tmod_eight (p : ℕ) : (p : ℤ).tmod 8 = ((p % 8 : ℕ) : ℤ) := by
  rw [Int.tmod_eq_emod_of_nonneg (by omega)]
  omega

/-- A negative position is undefined already in the shift or in the index. -/
theorem negative_position {pos : ℤ} (h : pos < 0) : pos.tmod 8 < 0 ∨ pos.tdiv 8 < 0 := by
  have he := Int.mul_tdiv_add_tmod pos 8
  omega

theorem setAt_of_bitAt {v : List UInt8} {p : ℕ} (h : bitAt v p = true) : setAt v p = v := by
  have hp := lt_of_bitAt h
  have hi : p / 8 < v.length := by omega
  have hb : v.getD (p / 8) 0 ||| mask (p % 8) = v.getD (p / 8) 0 := by
    apply byte_ext
    intro k
    have hj : p % 8 < 8 := by omega
    by_cases hk : p % 8 = k
    · subst k
      simpa [bitAt,bit_mask hj] using h
    · simp [bit_mask hj,hk]
  rw [setAt,hb,List.getD_eq_getElem _ _ hi,List.set_getElem_self]

/-- What both `flip` functions do to the byte they address. -/
theorem set_xor_mask {v : List UInt8} {p : ℕ} (h : bitAt v p = false) :
    v.set (p / 8) (v.getD (p / 8) 0 ^^^ mask (p % 8)) = setAt v p := by
  rw [setAt,xor_mask_of_clear (by omega) h]

theorem Bfield.exists_natCast (b : Bfield) (p : ℕ) :
    b.exists p = if p < 8 * b.bfield.length then .ok (bitAt b.bfield p) else .error .outOfRange := by
  simp only [Bfield.exists,natCast_tdiv_eight,natCast_tmod_eight,shiftOne_natCast,Outcome.ok_bind,
    index_natCast]
  by_cases hp : p < 8 * b.bfield.length
  · have hi : p / 8 < b.bfield.length := by omega
    have hm := and_mask_ne_zero (b := b.bfield.getD (p / 8) 0) (show p % 8 < 8 by omega)
    rw [if_pos hi,if_pos hp]
    simp only [Outcome.ok_bind,Outcome.pure_eq,Except.ok.injEq]
    rw [Bool.eq_iff_iff,bne_iff_ne]
    exact hm
  · have hi : ¬ p / 8 < b.bfield.length := by omega
    rw [if_neg hi,if_neg hp,Outcome.error_bind]

theorem Bfield.exists_of_lt {b : Bfield} {p : ℕ} (hp : p < 8 * b.bfield.length) :
    b.exists p = .ok (bitAt b.bfield p) := by
  rw [Bfield.exists_natCast,if_pos hp]

theorem Bfield.exists_of_neg {b : Bfield} {pos : ℤ} (h : pos < 0) :
    ∃ f : Fault, f.Bounds ∧ b.exists pos = .error f := by
  by_cases hm : 0 ≤ pos.tmod 8
  · have hd : ¬ 0 ≤ pos.tdiv 8 := by
      rcases negative_position h with hn | hn <;> omega
    exact ⟨.outOfRange,Or.inl rfl,by simp [Bfield.exists,shiftOne,hm,index,hd]⟩
  · exact ⟨.badShift,Or.inr rfl,by simp [Bfield.exists,shiftOne,hm]⟩

/-- No vector is read at a negative position. -/
theorem Bfield.exists_of_neg_congr (b b' : Bfield) {pos : ℤ} (h : pos < 0) : b.exists pos = b'.exists pos := by
  unfold Bfield.exists
  by_cases hm : 0 ≤ pos.tmod 8
  · have hd : ¬ 0 ≤ pos.tdiv 8 := by
      rcases negative_position h with hn | hn <;> omega
    simp [shiftOne,hm,index,hd]
  · simp [shiftOne,hm]

/-- `exists` returns only at a position inside the vector. -/
theorem Bfield.exists_eq_ok {b : Bfield} {pos : ℤ} {r : Bool} :
    b.exists pos = .ok r ↔
      ∃ p : ℕ, pos = p ∧ p < 8 * b.bfield.length ∧ r = bitAt b.bfield p := by
  constructor
  · intro h
    by_cases hpos : 0 ≤ pos
    · obtain ⟨p,rfl⟩ := Int.eq_ofNat_of_zero_le hpos
      rw [Bfield.exists_natCast] at h
      by_cases hp : p < 8 * b.bfield.length
      · rw [if_pos hp] at h
        exact ⟨p,rfl,hp,(Except.ok.inj h).symm⟩
      · rw [if_neg hp] at h
        cases h
    · obtain ⟨f,_,hf⟩ := Bfield.exists_of_neg (b := b) (Int.lt_of_not_ge hpos)
      rw [hf] at h
      cases h
  · rintro ⟨p,rfl,hp,rfl⟩
    exact Bfield.exists_of_lt hp

theorem Bfield.flipAt_natCast (b : Bfield) (i : ℕ) {j : ℕ} (hj : j < 8) :
    b.flipAt i j = if i < b.bfield.length
      then .ok (!bitAt b.bfield (8 * i + j),⟨setAt b.bfield (8 * i + j)⟩)
      else .error .outOfRange := by
  simp only [Bfield.flipAt,shiftOne_natCast,Outcome.ok_bind,index_natCast]
  by_cases hi : i < b.bfield.length
  · have hd : (8 * i + j) / 8 = i := by omega
    have hm : (8 * i + j) % 8 = j := by omega
    have hb := bitAt_index b.bfield i hj
    have hmask := and_mask_eq (b := b.bfield.getD i 0) hj
    rw [if_pos hi,if_pos hi,Outcome.ok_bind]
    by_cases hbit : bitAt b.bfield (8 * i + j) = true
    · have he : b.bfield.getD i 0 &&& mask j = mask j := hmask.mpr (hb ▸ hbit)
      rw [if_neg (not_not.mpr he),setAt_of_bitAt hbit,hbit]
      rfl
    · have hclear : bitAt b.bfield (8 * i + j) = false := by simpa using hbit
      have he : b.bfield.getD i 0 &&& mask j ≠ mask j := fun h => hbit (hb ▸ hmask.mp h)
      have hset := set_xor_mask hclear
      rw [hd,hm] at hset
      rw [if_pos he,hclear,Int.toNat_natCast,hset]
      rfl
  · rw [if_neg hi,if_neg hi,Outcome.error_bind]

theorem Bfield.flip_natCast (b : Bfield) (p : ℕ) :
    b.flip p = if p < 8 * b.bfield.length then .ok ⟨setAt b.bfield p⟩ else .error .outOfRange := by
  have hf := Bfield.flipAt_natCast b (p / 8) (show p % 8 < 8 by omega)
  have hp : 8 * (p / 8) + p % 8 = p := by omega
  have hi : p / 8 < b.bfield.length ↔ p < 8 * b.bfield.length := by omega
  have hsame : b.flip p = (b.flipAt (p / 8 : ℕ) (p % 8 : ℕ)).map Prod.snd := by
    simp only [Bfield.flip,Bfield.flipAt,natCast_tdiv_eight,natCast_tmod_eight,shiftOne_natCast,Outcome.ok_bind]
    cases index b.bfield (p / 8 : ℕ) with
    | error f => rfl
    | ok byte =>
      simp only [Outcome.ok_bind]
      split <;> rfl
  rw [hsame,hf,hp]
  simp only [hi]
  split <;> rfl

theorem Bfield.flip_of_lt {b : Bfield} {p : ℕ} (hp : p < 8 * b.bfield.length) :
    b.flip p = .ok ⟨setAt b.bfield p⟩ := by
  rw [Bfield.flip_natCast,if_pos hp]

private theorem Bfield.diff_loop (l r diff : List UInt8) {n : ℕ} (hn : n ≤ l.length) (hr : n ≤ r.length) :
    (List.range n).foldlM (fun diff (i : ℕ) => do
      let a ← index l i
      let b ← index r i
      return diff ++ [a ^^^ (a ||| b)]) diff =
      (.ok (diff ++ (List.zipWith (fun a b => a ^^^ (a ||| b)) l r).take n) :
        Except Fault (List UInt8)) := by
  induction n with
  | zero => simp
  | succ n ih =>
    have hzip : n < (List.zipWith (fun a b => a ^^^ (a ||| b)) l r).length := by
      simp only [List.length_zipWith]
      omega
    rw [List.range_succ,List.foldlM_append,ih (by omega) (by omega)]
    simp only [Outcome.ok_bind,List.foldlM_cons,List.foldlM_nil,index_of_lt (show n < l.length by omega),
      index_of_lt (show n < r.length by omega),Outcome.pure_eq,List.take_succ_eq_append_getElem hzip,
      List.append_assoc,List.getElem_zipWith]
    rw [List.getD_eq_getElem _ _ (by omega),List.getD_eq_getElem _ _ (by omega)]

/-- `diff` against a vector that is long enough. -/
theorem Bfield.diff_of_le {b : Bfield} {right : List UInt8} (h : b.bfield.length ≤ right.length)
    (diff : List UInt8) :
    b.diff right diff =
      .ok (diff ++ List.zipWith (fun a b => a ^^^ (a ||| b)) b.bfield right) := by
  have hz : (List.zipWith (fun a b => a ^^^ (a ||| b)) b.bfield right).length = b.bfield.length := by
    simp [h]
  rw [Bfield.diff,Bfield.diff_loop _ _ _ le_rfl h,← hz,List.take_length]

/-- `diff` reads past a vector that is shorter than the own bitfield. -/
theorem Bfield.diff_of_lt {b : Bfield} {right : List UInt8} (h : right.length < b.bfield.length)
    (diff : List UInt8) : b.diff right diff = .error .outOfRange := by
  have hr : List.range b.bfield.length =
      List.range right.length ++
        right.length :: (List.range (b.bfield.length - right.length - 1)).map
          (fun k => right.length + 1 + k) := by
    have hlen : b.bfield.length = right.length + (1 + (b.bfield.length - right.length - 1)) := by omega
    rw [hlen,List.range_add,List.range_add]
    simp [Function.comp_def,Nat.add_assoc]
  rw [Bfield.diff,hr,List.foldlM_append,Bfield.diff_loop _ _ _ h.le le_rfl]
  simp [index_natCast,h]

theorem Bfield.diff_eq_ok {b : Bfield} {right diff out : List UInt8} :
    b.diff right diff = .ok out ↔ b.bfield.length ≤ right.length ∧
      out = diff ++ List.zipWith (fun a b => a ^^^ (a ||| b)) b.bfield right := by
  by_cases h : b.bfield.length ≤ right.length
  · simp [Bfield.diff_of_le h,h,eq_comm]
  · simp [Bfield.diff_of_lt (Nat.lt_of_not_le h),h]

/-! ## The bitfield a store starts with -/

theorem Bfield.ofFile_length (hasfile : Bool) (npcs : ℕ) :
    (Bfield.ofFile hasfile npcs).bfield.length = (npcs + 7) / 8 := by
  simp only [Bfield.ofFile]
  split <;> simp <;> omega

theorem bitAt_replicate {n p : ℕ} (b : UInt8) (h : p < 8 * n) :
    bitAt (List.replicate n b) p = bit b (p % 8) := by
  have hi : p / 8 < n := by omega
  simp [bitAt,List.getD_eq_getElem?_getD,hi]

/-- A whole byte of a holder is the number 1, the byte left over has all bits. -/
theorem Bfield.bitAt_ofFile {hasfile : Bool} {npcs p : ℕ} (hp : p < 8 * ((npcs + 7) / 8)) :
    bitAt (Bfield.ofFile hasfile npcs).bfield p =
      (hasfile && (decide (8 * (npcs / 8) ≤ p) || decide (p % 8 = 0))) := by
  have hfull : ∀ j < 8, bit ((List.range 8).foldl (fun m i => m ^^^ mask i) 0) j = true := by decide
  have hone : ∀ j < 8, bit 1 j = decide (j = 0) := by decide
  have hj : p % 8 < 8 := by omega
  simp only [Bfield.ofFile]
  by_cases hw : p < 8 * (npcs / 8)
  · have hwhole := bitAt_replicate (if hasfile then 1 else 0) hw
    have hdec : decide (8 * (npcs / 8) ≤ p) = false := by simpa using hw
    rw [hdec,Bool.false_or]
    split
    · rw [bitAt_append,List.length_replicate,if_pos hw,hwhole]
      cases hasfile with
      | false => simp
      | true => simpa using hone _ hj
    · rw [hwhole]
      cases hasfile with
      | false => simp
      | true => simpa using hone _ hj
  · have hl : npcs % 8 ≠ 0 := by omega
    have hdec : decide (8 * (npcs / 8) ≤ p) = true := by simpa using hw
    have hzero : (p - 8 * (npcs / 8)) / 8 = 0 := by omega
    have hsub : (p - 8 * (npcs / 8)) % 8 = p % 8 := by omega
    rw [if_pos hl,bitAt_append,List.length_replicate,if_neg hw,hdec,Bool.true_or,Bool.and_true,
      bitAt,hzero,hsub]
    cases hasfile with
    | false => simp
    | true => simpa using hfull _ hj

/-- The bitfield advertises the pieces of the file, and no others. -/
structure Bfield.Advertises (b : Bfield) (hasfile : Bool) (npcs : ℕ) : Prop where
  size : b.bfield.length = (npcs + 7) / 8
  bits : ∀ p : ℕ, p < 8 * ((npcs + 7) / 8) → b.exists p = .ok (decide (hasfile = true ∧ p < npcs))

/-- A holder of at least one piece never advertises exactly its pieces: with whole bytes
piece 1 is missing, and with a byte left over there is a piece `npcs`. -/
theorem Bfield.ofFile_advertises_iff (hasfile : Bool) (npcs : ℕ) :
    (Bfield.ofFile hasfile npcs).Advertises hasfile npcs ↔ hasfile = false ∨ npcs = 0 := by
  have hlen := Bfield.ofFile_length hasfile npcs
  have hbits : ∀ p, p < 8 * ((npcs + 7) / 8) → (Bfield.ofFile hasfile npcs).exists p =
      .ok (hasfile && (decide (8 * (npcs / 8) ≤ p) || decide (p % 8 = 0))) := by
    intro p hp
    rw [Bfield.exists_of_lt (by rw [hlen]; exact hp),Bfield.bitAt_ofFile hp]
  constructor
  · intro h
    by_contra hno
    rw [not_or,Bool.not_eq_false] at hno
    obtain ⟨rfl,hpos⟩ := hno
    by_cases hl : npcs % 8 = 0
    · have hp : 1 < 8 * ((npcs + 7) / 8) := by omega
      have heq := (hbits 1 hp).symm.trans (h.bits 1 hp)
      have hw : ¬ 8 * (npcs / 8) ≤ 1 := by omega
      have h1 : 1 < npcs := by omega
      simp [hw,h1] at heq
    · have hp : npcs < 8 * ((npcs + 7) / 8) := by omega
      have heq := (hbits npcs hp).symm.trans (h.bits npcs hp)
      have hw : 8 * (npcs / 8) ≤ npcs := by omega
      simp [hw] at heq
  · intro h
    refine ⟨hlen,fun p hp => ?_⟩
    rcases h with rfl | rfl
    · rw [hbits p hp]
      simp
    · exact absurd hp (Nat.not_lt_zero p)

/-- Of eight pieces a holder advertises the first. -/
theorem Bfield.ofFile_eight : ¬ (Bfield.ofFile true 8).Advertises true 8 := by
  intro h
  exact absurd (h.bits 1 (by decide)) (by decide)

end BTRx
