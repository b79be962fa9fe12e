import BTRx.ObjStore.Cache

/-! # The neighbour map

One map is shared by all connections of a node. Its bitfield holds the earmarks, one byte
for each piece, of which `earmark` addresses bit `8 * i + j` as the pair `(i, j)`. The
body of its loop is a function of its own, since the loops of several connections
interleave between two turns.
-/
namespace BTRx
open ByteSet

structure Nbr where
  choked : Bool
  done : Bool
  interested : Bool
  requests : UInt32
  deriving DecidableEq

/-- `nbrs` holds the `Nbr` objects, and a pointer to one is its place there. -/
structure NbrMap where
  npeers : UInt32
  peers : List ℤ
  peerinfo : PosMap
  nbrs : List Nbr
  bfield : Bfield

/-- `NbrMap(uint32_t npeers, int npcs)`. -/
def NbrMap.new (npeers : UInt32) (npcs : ℕ) : NbrMap :=
  { npeers, peers := [], peerinfo := ∅, nbrs := [], bfield := Bfield.ofCount npcs }

/-- `NbrMap::register_cli(int peerid)`, with the pointer it returns. -/
def NbrMap.registerCli (m : NbrMap) (peerid : ℤ) : ℕ × NbrMap :=
  let nbr := m.nbrs.length
  (nbr,{ m with
    nbrs := m.nbrs ++ [{ choked := false, done := false, interested := false, requests := 0 }]
    peers := m.peers ++ [peerid]
    peerinfo := m.peerinfo.insertNew peerid nbr
    npeers := m.npeers - 1 })

/-- The turns of a double loop over the bits of `n` bytes. -/
def positions (n : ℕ) : List (ℕ × ℕ) :=
  (List.range n).flatMap (fun i => (List.range 8).map (fun j => (i,j)))

/-- What the loop of `earmark` works on: the earmarks, `diff` and `ret`. -/
structure Earmarking where
  bfield : Bfield
  diff : List UInt8
  ret : Bool

/-- The body of the loop of `earmark`. -/
def Earmarking.turn (e : Earmarking) (ij : ℕ × ℕ) : Except Fault Earmarking := do
  let (i,j) := ij
  let m := mask j
  let byte ← index e.diff i
  if byte &&& m = m then
    let (ret,bfield) ← e.bfield.flipAt i j
    if ret = false then
      return { bfield, diff := e.diff.set i (byte ^^^ m), ret }
    else
      return { e with bfield, ret }
  else
    return e

/-- `NbrMap::earmark(bfield_node, bfield_peer, diff)`. -/
def NbrMap.earmark (m : NbrMap) (bfieldNode : Bfield) (bfieldPeer diff : List UInt8) :
    Except Fault (Bool × List UInt8 × NbrMap) := do
  let diff ← bfieldNode.diff bfieldPeer diff
  let e ← (positions diff.length).foldlM Earmarking.turn ⟨m.bfield,diff,false⟩
  return (e.ret,e.diff,{ m with bfield := e.bfield })

/-! ## The loop over the bits -/

theorem mem_positions {n : ℕ} {ij : ℕ × ℕ} : ij ∈ positions n ↔ ij.1 < n ∧ ij.2 < 8 := by
  obtain ⟨i,j⟩ := ij
  simp [positions]

/-- The piece number that a position stands for. -/
def pieceAt (ij : ℕ × ℕ) : ℕ := 8 * ij.1 + ij.2

theorem pieceAt_div {ij : ℕ × ℕ} (hj : ij.2 < 8) : (pieceAt ij / 8,pieceAt ij % 8) = ij := by
  obtain ⟨i,j⟩ := ij
  simp only [pieceAt] at hj ⊢
  congr 1 <;> omega

/-- Every set bit of a vector is visited. -/
theorem exists_position {v : List UInt8} {p : ℕ} (hp : bitAt v p = true) :
    ∃ ij ∈ positions v.length, pieceAt ij = p := by
  have hlt := lt_of_bitAt hp
  refine ⟨(p / 8,p % 8),mem_positions.mpr ⟨?_,?_⟩,?_⟩
  · simp only
    omega
  · simp only
    omega
  · simp only [pieceAt]
    omega

theorem pieceAt_inj {a b : ℕ × ℕ} (ha : a.2 < 8) (hb : b.2 < 8) (h : pieceAt a = pieceAt b) :
    a = b := by
  rw [← pieceAt_div ha,← pieceAt_div hb,h]

theorem positions_nodup (n : ℕ) : (positions n).Nodup := by
  have heq : positions n = (List.range n) ×ˢ (List.range 8) := rfl
  rw [heq]
  exact List.Nodup.product List.nodup_range List.nodup_range

/-- One turn: a clear bit is passed over; a set bit is claimed when its earmark was clear,
and otherwise it leaves `diff`. -/
theorem Earmarking.turn_of_clear {e : Earmarking} {ij : ℕ × ℕ} (hi : ij.1 < e.diff.length)
    (hj : ij.2 < 8) (h : bitAt e.diff (pieceAt ij) = false) : e.turn ij = .ok e := by
  obtain ⟨i,j⟩ := ij
  have hbit := bitAt_index e.diff i hj
  have hm : e.diff.getD i 0 &&& mask j ≠ mask j := by
    intro he
    have hset := (and_mask_eq hj).mp he
    rw [← hbit] at hset
    rw [pieceAt] at h
    rw [h] at hset
    cases hset
  simp only [turn,index_of_lt hi,Outcome.ok_bind,if_neg hm,Outcome.pure_eq]

theorem Earmarking.turn_of_set {e : Earmarking} {ij : ℕ × ℕ} (hi : ij.1 < e.diff.length)
    (hj : ij.2 < 8) (h : bitAt e.diff (pieceAt ij) = true) :
    e.turn ij = if ij.1 < e.bfield.bfield.length then
      .ok (if bitAt e.bfield.bfield (pieceAt ij) then
        ⟨e.bfield,e.diff.set ij.1 (e.diff.getD ij.1 0 ^^^ mask ij.2),false⟩
      else ⟨⟨setAt e.bfield.bfield (pieceAt ij)⟩,e.diff,true⟩)
      else .error .outOfRange := by
  obtain ⟨i,j⟩ := ij
  have hbit := bitAt_index e.diff i hj
  have hm : e.diff.getD i 0 &&& mask j = mask j := (and_mask_eq hj).mpr (hbit ▸ h)
  simp only [turn,index_of_lt hi,Outcome.ok_bind,if_pos hm,Bfield.flipAt_natCast _ _ hj]
  by_cases hb : i < e.bfield.bfield.length
  · rw [if_pos hb,if_pos hb]
    cases hmark : bitAt e.bfield.bfield (8 * i + j) with
    | false => simp [pieceAt,hmark]
    | true =>
      have hsame := setAt_of_bitAt hmark
      simp [pieceAt,hmark,hsame]
  · rw [if_neg hb,if_neg hb,Outcome.error_bind]

/-- Clearing a set bit of `diff` leaves the others alone. -/
theorem bitAt_clear {v : List UInt8} {ij : ℕ × ℕ} (hi : ij.1 < v.length) (hj : ij.2 < 8)
    (h : bitAt v (pieceAt ij) = true) (p : ℕ) :
    bitAt (v.set ij.1 (v.getD ij.1 0 ^^^ mask ij.2)) p = (bitAt v p && decide (p ≠ pieceAt ij)) := by
  obtain ⟨i,j⟩ := ij
  rw [bitAt_set hi]
  by_cases hp : p / 8 = i
  · subst hp
    rw [if_pos rfl,bit_xor,bit_mask hj]
    by_cases hjp : j = p % 8
    · have heq : p = pieceAt (p / 8,j) := by
        simp only [pieceAt]
        omega
      have hset : bit (v.getD (p / 8) 0) (p % 8) = true := by
        rw [← heq] at h
        exact h
      rw [hset,decide_eq_true hjp,decide_eq_false (not_not.mpr heq)]
      simp
    · have hne : p ≠ pieceAt (p / 8,j) := by
        simp only [pieceAt]
        omega
      simp [hjp,hne,bitAt]
  · have hne : p ≠ pieceAt (i,j) := by
      simp only [pieceAt]
      omega
    simp [hp,hne]

/-- Everything a returning turn can have done. -/
theorem Earmarking.turn_cases {e e' : Earmarking} {ij : ℕ × ℕ} (hi : ij.1 < e.diff.length)
    (hj : ij.2 < 8) (h : e.turn ij = .ok e') :
    bitAt e.diff (pieceAt ij) = false ∧ e' = e ∨
    bitAt e.diff (pieceAt ij) = true ∧ bitAt e.bfield.bfield (pieceAt ij) = true ∧
      e'.bfield = e.bfield ∧ e'.ret = false ∧ e'.diff.length = e.diff.length ∧
      (∀ q, bitAt e'.diff q = (bitAt e.diff q && decide (q ≠ pieceAt ij))) ∨
    bitAt e.diff (pieceAt ij) = true ∧ bitAt e.bfield.bfield (pieceAt ij) = false ∧
      pieceAt ij < 8 * e.bfield.bfield.length ∧
      e' = ⟨⟨setAt e.bfield.bfield (pieceAt ij)⟩,e.diff,true⟩ := by
  cases hbit : bitAt e.diff (pieceAt ij) with
  | false =>
    rw [turn_of_clear hi hj hbit] at h
    cases h
    exact Or.inl ⟨rfl,rfl⟩
  | true =>
    right
    rw [turn_of_set hi hj hbit] at h
    by_cases hb : ij.1 < e.bfield.bfield.length
    · rw [if_pos hb] at h
      cases hmark : bitAt e.bfield.bfield (pieceAt ij) with
      | false =>
        right
        rw [hmark] at h
        cases h
        refine ⟨rfl,rfl,?_,rfl⟩
        simp only [pieceAt]
        omega
      | true =>
        left
        rw [hmark] at h
        cases h
        exact ⟨rfl,rfl,rfl,rfl,by simp,fun q => bitAt_clear hi hj hbit q⟩
    · rw [if_neg hb] at h
      cases h

theorem Earmarking.turn_length {e e' : Earmarking} {ij : ℕ × ℕ} (hi : ij.1 < e.diff.length)
    (hj : ij.2 < 8) (h : e.turn ij = .ok e') :
    e'.diff.length = e.diff.length ∧ e'.bfield.bfield.length = e.bfield.bfield.length := by
  rcases turn_cases hi hj h with ⟨_,rfl⟩ | ⟨_,_,hb,_,hd,_⟩ | ⟨_,_,_,rfl⟩
  · exact ⟨rfl,rfl⟩
  · exact ⟨hd,by rw [hb]⟩
  · exact ⟨rfl,setAt_length _ _⟩

/-- A turn clears at most the bit it is about. -/
theorem Earmarking.turn_diff {e e' : Earmarking} {ij : ℕ × ℕ} (hi : ij.1 < e.diff.length)
    (hj : ij.2 < 8) (h : e.turn ij = .ok e') (p : ℕ) :
    (p ≠ pieceAt ij → bitAt e'.diff p = bitAt e.diff p) ∧
      (bitAt e'.diff p = true → bitAt e.diff p = true) := by
  rcases turn_cases hi hj h with ⟨_,rfl⟩ | ⟨_,_,_,_,_,hq⟩ | ⟨_,_,_,rfl⟩
  · exact ⟨fun _ => rfl,id⟩
  · rw [hq,Bool.and_eq_true]
    exact ⟨fun hne => by rw [decide_eq_true hne,Bool.and_true],And.left⟩
  · exact ⟨fun _ => rfl,id⟩

theorem Earmarking.turn_marks {e e' : Earmarking} {ij : ℕ × ℕ} (hi : ij.1 < e.diff.length)
    (hj : ij.2 < 8) (h : e.turn ij = .ok e') {p : ℕ} (hp : bitAt e.bfield.bfield p = true) :
    bitAt e'.bfield.bfield p = true := by
  rcases turn_cases hi hj h with ⟨_,rfl⟩ | ⟨_,_,hb,_⟩ | ⟨_,_,hlt,rfl⟩
  · exact hp
  · rw [hb]
    exact hp
  · exact bitAt_setAt_of_bitAt hlt hp

/-- The loop returns exactly when every set bit it meets has an earmark in range. -/
theorem Earmarking.foldlM_turn {todo : List (ℕ × ℕ)} : ∀ {e : Earmarking}, todo.Nodup →
    (∀ ij ∈ todo, ij.1 < e.diff.length ∧ ij.2 < 8) →
    if ∀ ij ∈ todo, bitAt e.diff (pieceAt ij) = true → ij.1 < e.bfield.bfield.length
      then ∃ e', todo.foldlM turn e = .ok e' ∧ e'.diff.length = e.diff.length ∧
        e'.bfield.bfield.length = e.bfield.bfield.length
      else todo.foldlM turn e = .error .outOfRange := by
  induction todo with
  | nil =>
    intro e _ _
    simp
  | cons ij todo ih =>
    intro e hnd hin
    obtain ⟨hnot,hnd⟩ := List.nodup_cons.mp hnd
    obtain ⟨⟨hi,hj⟩,hin⟩ := List.forall_mem_cons.mp hin
    by_cases hok : bitAt e.diff (pieceAt ij) = true → ij.1 < e.bfield.bfield.length
    · have hturn : ∃ e', e.turn ij = .ok e' := by
        cases hbit : bitAt e.diff (pieceAt ij) with
        | false => exact ⟨e,turn_of_clear hi hj hbit⟩
        | true => exact ⟨_,(turn_of_set hi hj hbit).trans (if_pos (hok hbit))⟩
      obtain ⟨e₁,h₁⟩ := hturn
      obtain ⟨hd,hb⟩ := turn_length hi hj h₁
      -- a turn changes no bit at a position still to come
      have hsame : ∀ kl ∈ todo, bitAt e₁.diff (pieceAt kl) = bitAt e.diff (pieceAt kl) := by
        intro kl hkl
        have hne : pieceAt kl ≠ pieceAt ij := by
          intro heq
          have := pieceAt_inj (hin kl hkl).2 hj heq
          exact hnot (this ▸ hkl)
        exact (turn_diff hi hj h₁ _).1 hne
      have hrest := ih (e := e₁) hnd (fun kl hkl => by rw [hd]; exact hin kl hkl)
      have hcond : (∀ kl ∈ ij :: todo, bitAt e.diff (pieceAt kl) = true →
          kl.1 < e.bfield.bfield.length) ↔
          ∀ kl ∈ todo, bitAt e₁.diff (pieceAt kl) = true → kl.1 < e₁.bfield.bfield.length := by
        rw [List.forall_mem_cons,hb]
        constructor
        · rintro ⟨_,h⟩ kl hkl hbit
          exact h kl hkl (by rwa [hsame kl hkl] at hbit)
        · intro h
          exact ⟨hok,fun kl hkl hbit => h kl hkl (by rwa [hsame kl hkl])⟩
      simp only [List.foldlM_cons,h₁,Outcome.ok_bind,hcond]
      rw [hd,hb] at hrest
      rw [hb]
      exact hrest
    · rw [if_neg (fun h => hok (h ij List.mem_cons_self))]
      rw [Classical.not_imp] at hok
      rw [List.foldlM_cons,turn_of_set hi hj hok.1,if_neg hok.2,Outcome.error_bind]

/-- What `diff` holds after the call of `Bfield::diff`. -/
def newBits (own peer diff : List UInt8) : List UInt8 :=
  diff ++ List.zipWith (fun a b => a ^^^ (a ||| b)) own peer

theorem bitAt_newBits {own peer : List UInt8} (h : own.length ≤ peer.length) (p : ℕ) :
    bitAt (newBits own peer []) p = (decide (p < 8 * own.length) && bitAt peer p && !bitAt own p) := by
  rw [newBits,List.nil_append,bitAt_zipWith_xor_or h]

/-- The peer's bitfield is long enough, and every bit that `diff` then holds has an
earmark in range. -/
def NbrMap.EarmarkFits (m : NbrMap) (own peer diff : List UInt8) : Prop :=
  own.length ≤ peer.length ∧
    ∀ p, bitAt (newBits own peer diff) p = true → p < 8 * m.bfield.bfield.length

theorem positions_bits {v : List UInt8} {n : ℕ} : (∀ ij ∈ positions v.length,
    bitAt v (pieceAt ij) = true → ij.1 < n) ↔ ∀ p, bitAt v p = true → p < 8 * n := by
  constructor
  · intro h p hp
    obtain ⟨ij,hij,rfl⟩ := exists_position hp
    have hi := h ij hij hp
    have hj := (mem_positions.mp hij).2
    simp only [pieceAt]
    omega
  · intro h ij hij hbit
    have hlt := h _ hbit
    have hj := (mem_positions.mp hij).2
    simp only [pieceAt] at hlt
    omega

theorem NbrMap.earmark_of_fits {m : NbrMap} {own : Bfield} {peer diff : List UInt8}
    (h : m.EarmarkFits own.bfield peer diff) : ∃ ret diff' bfield,
      m.earmark own peer diff = .ok (ret,diff',{ m with bfield }) ∧
        bfield.bfield.length = m.bfield.bfield.length := by
  have hloop := Earmarking.foldlM_turn (e := ⟨m.bfield,newBits own.bfield peer diff,false⟩)
    (positions_nodup _) (fun ij hij => mem_positions.mp hij)
  rw [if_pos (positions_bits.mpr h.2)] at hloop
  obtain ⟨e,he,_,hb⟩ := hloop
  refine ⟨e.ret,e.diff,e.bfield,?_,hb⟩
  rw [NbrMap.earmark,Bfield.diff_of_le h.1,Outcome.ok_bind]
  rw [newBits] at he
  rw [he]
  rfl

theorem NbrMap.earmark_of_not_fits {m : NbrMap} {own : Bfield} {peer diff : List UInt8}
    (h : ¬ m.EarmarkFits own.bfield peer diff) :
    m.earmark own peer diff = .error .outOfRange := by
  by_cases hlen : own.bfield.length ≤ peer.length
  · have hbits : ¬ ∀ p, bitAt (newBits own.bfield peer diff) p = true →
        p < 8 * m.bfield.bfield.length := fun hb => h ⟨hlen,hb⟩
    have hloop := Earmarking.foldlM_turn (e := ⟨m.bfield,newBits own.bfield peer diff,false⟩)
      (positions_nodup _) (fun ij hij => mem_positions.mp hij)
    rw [if_neg (fun hb => hbits (positions_bits.mp hb)),newBits] at hloop
    rw [NbrMap.earmark,Bfield.diff_of_le hlen,Outcome.ok_bind,hloop,Outcome.error_bind]
  · rw [NbrMap.earmark,Bfield.diff_of_lt (Nat.lt_of_not_le hlen),Outcome.error_bind]

end BTRx
