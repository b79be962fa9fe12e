import BTRx.ObjStore.FirstWrite
import BTRx.ObjStore.Geometry

/-! # What add_piece leaves alone

`Cache::put` writes `pcsz` bytes for every piece. The last piece of a file may be shorter,
and then the write goes past the end and the file grows; every other write stays in the
block of its piece.
-/
namespace BTRx
open Memory ByteSet Transition

/-- A call of `add_piece` with the number of a piece. -/
def StoreCall.Adds (npcs : ℕ) : StoreCall → Prop
  | .add p _ => p < npcs
  | .get _ => False

namespace ObjStore
variable {s s' t : ObjStore} {fsz pcsz p : ℕ} {piece : List Cell}

/-- A store of this configuration, at any time after `bfield_init`. -/
structure BuiltFor (s : ObjStore) (fsz pcsz : ℕ) : Prop where
  file : s.fsz = fsz
  piece : s.pcsz = pcsz
  cache : s.cache.pcsz = pcsz
  bits : s.bfield.bfield.length = (npcsOf fsz pcsz + 7) / 8
  pointers : s.cache.Addressed

/-- Between two states nothing has changed but piece `p` and its bit. -/
structure FramedAdd (s s' : ObjStore) (p : ℕ) : Prop where
  length : s'.cache.file.data.length = s.fsz
  bytes : ∀ i, i ∉ Set.Ico (p * s.pcsz) (min ((p + 1) * s.pcsz) s.fsz) →
    s'.cache.file.data[i]? = s.cache.file.data[i]?
  bits : ∀ q : ℤ, q ≠ p → s'.bfield.exists q = s.bfield.exists q

theorem BuiltFor.getPos (hs : s.BuiltFor fsz pcsz) (hfsz : fsz < 2 ^ 31) (hpcsz : 1 ≤ pcsz)
    (hp : p < npcsOf fsz pcsz) : s.cache.getPos p = (p * pcsz : ℕ) := by
  have hlt := (lt_npcsOf_iff hpcsz).mp hp
  rw [← hs.cache] at hlt ⊢
  exact Cache.getPos_of_lt hfsz hlt

theorem BuiltFor.inside (hs : s.BuiltFor fsz pcsz) (hp : p < npcsOf fsz pcsz) :
    p < 8 * s.bfield.bfield.length := by
  rw [hs.bits]
  omega

/-- Everything an `add_piece` of a new piece does. -/
theorem BuiltFor.add_missing (hs : s.BuiltFor fsz pcsz) (hfsz : fsz < 2 ^ 31) (hpcsz : 1 ≤ pcsz)
    (hp : p < npcsOf fsz pcsz) (hmiss : s.bfield.exists p = .ok false) {r : ℕ}
    (h : s.addPiece p piece = .ok (r,s')) : s'.BuiltFor fsz pcsz ∧
      s'.bfield = ⟨setAt s.bfield.bfield p⟩ ∧
      s'.cache.file.data = File.overwrite s.cache.file.data (p * pcsz) (window pcsz piece) := by
  have hlt := hs.inside hp
  rw [Bfield.exists_of_lt hlt,Except.ok.injEq] at hmiss
  rw [addPiece_of_missing hlt hmiss] at h
  obtain ⟨cache,hput,h⟩ := Outcome.bind_eq_ok.mp h
  cases h
  have haddr := hs.pointers.put hput
  rw [Cache.put_natCast (hs.getPos hfsz hpcsz hp)] at hput
  obtain ⟨hsame,hfile⟩ := (Cache.updateCache_eq_ok.mp hput).frame
  refine ⟨⟨hs.file,hs.piece,hsame.1.trans hs.cache,?_,haddr⟩,rfl,?_⟩
  · rw [setAt_length]
    exact hs.bits
  · simp only [hfile,Cache.written_data,hs.cache]

theorem window_ne_nil (hpcsz : 1 ≤ pcsz) : window pcsz piece ≠ [] := Cache.window_ne_nil hpcsz piece

theorem BuiltFor.add_length (hs : s.BuiltFor fsz pcsz) (hfsz : fsz < 2 ^ 31) (hpcsz : 1 ≤ pcsz)
    (hp : p < npcsOf fsz pcsz) (hmiss : s.bfield.exists p = .ok false) {r : ℕ}
    (h : s.addPiece p piece = .ok (r,s')) :
    s'.cache.file.data.length = max s.cache.file.data.length ((p + 1) * pcsz) := by
  rw [(hs.add_missing hfsz hpcsz hp hmiss h).2.2,File.overwrite_length (window_ne_nil hpcsz),window_length,
    Nat.succ_mul]

/-- The call returns when the cache can take the position. -/
theorem BuiltFor.add_returns_iff (hs : s.BuiltFor fsz pcsz) (hfsz : fsz < 2 ^ 31) (hpcsz : 1 ≤ pcsz)
    (hp : p < npcsOf fsz pcsz) (hmiss : s.bfield.exists p = .ok false) :
    (∃ r s', s.addPiece p piece = .ok (r,s')) ↔ s.cache.CanPut (s.cache.getPos p) := by
  have hlt := hs.inside hp
  rw [Bfield.exists_of_lt hlt,Except.ok.injEq] at hmiss
  have hpos : 0 ≤ s.cache.getPos p := by
    rw [hs.getPos hfsz hpcsz hp]
    exact Int.natCast_nonneg _
  rw [addPiece_of_missing hlt hmiss]
  constructor
  · rintro ⟨r,s',h⟩
    obtain ⟨cache,hput,_⟩ := Outcome.bind_eq_ok.mp h
    exact ((Cache.put_returns_iff hs.pointers piece).mp ⟨cache,hput⟩).2
  · intro hcan
    obtain ⟨cache,hput⟩ := (Cache.put_returns_iff hs.pointers piece).mpr ⟨hpos,hcan⟩
    rw [hput]
    exact ⟨_,_,rfl⟩

/-- A piece that fits into the file is written inside its block. -/
theorem BuiltFor.framed (hs : s.BuiltFor fsz pcsz) (hfsz : fsz < 2 ^ 31) (hpcsz : 1 ≤ pcsz)
    (hlen : s.cache.file.data.length = fsz) (hp : p < npcsOf fsz pcsz)
    (hmiss : s.bfield.exists p = .ok false) (hfit : (p + 1) * pcsz ≤ fsz) {r : ℕ}
    (h : s.addPiece p piece = .ok (r,s')) : s.FramedAdd s' p := by
  obtain ⟨_,hbits,hdata⟩ := hs.add_missing hfsz hpcsz hp hmiss h
  have hstart := (lt_npcsOf_iff hpcsz).mp hp
  refine ⟨?_,fun i hi => ?_,fun q hq => ?_⟩
  · rw [hs.add_length hfsz hpcsz hp hmiss h,hlen,hs.file]
    exact max_eq_left hfit
  · rw [hs.file,hs.piece,Set.mem_Ico,min_eq_left hfit,Nat.succ_mul] at hi
    rw [hdata,File.overwrite_getElem? (window_ne_nil hpcsz),window_length]
    by_cases hlt : i < p * pcsz
    · rw [if_pos hlt,List.getElem?_append_left (by omega)]
    · rw [if_neg hlt,if_neg (by omega)]
  · by_cases hneg : q < 0
    · exact Bfield.exists_of_neg_congr _ _ hneg
    · obtain ⟨q,rfl⟩ := Int.eq_ofNat_of_zero_le (not_lt.mp hneg)
      have hne : p ≠ q := by
        rintro rfl
        exact hq rfl
      rw [hbits,Bfield.exists_natCast,Bfield.exists_natCast,setAt_length,bitAt_setAt (hs.inside hp),
        decide_eq_false hne,Bool.or_false]

/-- One call on a store whose file has its length. -/
theorem BuiltFor.framed_iff (hs : s.BuiltFor fsz pcsz) (hfsz : fsz < 2 ^ 31) (hpcsz : 1 ≤ pcsz)
    (hlen : s.cache.file.data.length = fsz) (hp : p < npcsOf fsz pcsz)
    (hmiss : s.bfield.exists p = .ok false) :
    (∃ r s', s.addPiece p piece = .ok (r,s') ∧ s.FramedAdd s' p) ↔
      s.cache.CanPut (s.cache.getPos p) ∧ (p + 1) * pcsz ≤ fsz := by
  constructor
  · rintro ⟨r,s',h,hframe⟩
    refine ⟨(hs.add_returns_iff hfsz hpcsz hp hmiss).mp ⟨r,s',h⟩,?_⟩
    have hgrown := hs.add_length hfsz hpcsz hp hmiss h
    rw [hframe.length,hs.file] at hgrown
    omega
  · rintro ⟨hcan,hfit⟩
    obtain ⟨r,s',h⟩ := (hs.add_returns_iff hfsz hpcsz hp hmiss).mpr hcan
    exact ⟨r,s',h,hs.framed hfsz hpcsz hlen hp hmiss hfit h⟩

/-! ## Sequences of calls -/

/-- The step lemma: a call keeps the configuration, and the file grows with a new piece
that does not fit. -/
theorem BuiltFor.call_length (hs : s.BuiltFor fsz pcsz) (hfsz : fsz < 2 ^ 31) (hpcsz : 1 ≤ pcsz)
    (hp : p < npcsOf fsz pcsz) {r : ℕ × List Cell} (h : s.call (.add p piece) = .ok (r,s')) :
    s'.BuiltFor fsz pcsz ∧ s'.cache.file.data.length = max s.cache.file.data.length
      (if s.bfield.exists p = .ok false then (p + 1) * pcsz else 0) := by
  obtain ⟨⟨k,u⟩,hadd,h⟩ := Outcome.bind_eq_ok.mp h
  cases h
  cases hbit : bitAt s.bfield.bfield p with
  | true =>
    rw [addPiece_of_held (hs.inside hp) hbit] at hadd
    cases hadd
    rw [Bfield.exists_of_lt (hs.inside hp),hbit,if_neg (by simp),max_eq_left (Nat.zero_le _)]
    exact ⟨hs,rfl⟩
  | false =>
    have hmiss : s.bfield.exists p = .ok false := by rw [Bfield.exists_of_lt (hs.inside hp),hbit]
    rw [if_pos hmiss]
    exact ⟨(hs.add_missing hfsz hpcsz hp hmiss hadd).1,hs.add_length hfsz hpcsz hp hmiss hadd⟩

/-- A history in which every new piece fits into the file. -/
def AllFit (fsz pcsz : ℕ) (hist : List (ObjStore × StoreCall × ℕ × List Cell)) : Prop :=
  ∀ e ∈ hist, e.1.bfield.exists e.2.1.pcno = .ok false → (e.2.1.pcno + 1) * pcsz ≤ fsz

theorem BuiltFor.run_length (hs : s.BuiltFor fsz pcsz) (hfsz : fsz < 2 ^ 31) (hpcsz : 1 ≤ pcsz)
    (hlen : s.cache.file.data.length = fsz) {hist : List (ObjStore × StoreCall × ℕ × List Cell)}
    (run : Run (ExecStep call) s hist t) (hadds : ∀ e ∈ hist, e.2.1.Adds (npcsOf fsz pcsz)) :
    t.BuiltFor fsz pcsz ∧ fsz ≤ t.cache.file.data.length ∧
      (t.cache.file.data.length = fsz ↔ AllFit fsz pcsz hist) := by
  induction run with
  | refl => exact ⟨hs,hlen.ge,iff_of_true hlen fun e he => absurd he List.not_mem_nil⟩
  | @tail hist u t l run last ih =>
    rw [List.forall_mem_cons] at hadds
    obtain ⟨hbuilt,hle,hiff⟩ := ih hadds.2
    obtain ⟨x,r⟩ := l
    cases x with
    | get p => exact hadds.1.elim
    | add p piece =>
      obtain ⟨hnext,hgrown⟩ := hbuilt.call_length hfsz hpcsz hadds.1 last
      refine ⟨hnext,by omega,?_⟩
      rw [AllFit,List.forall_mem_cons,← AllFit,← hiff,hgrown]
      simp only [StoreCall.pcno]
      split
      · rename_i hmiss
        simp only [hmiss,true_imp_iff]
        omega
      · rename_i hheld
        simp only [hheld,false_imp_iff,true_and]
        omega

/-- A call of `add_piece` keeps to its piece exactly when it returns and the piece fits,
and the file has its length after exactly the runs in which every new piece fits. -/
theorem add_frame_iff (hs : s.BuiltFor fsz pcsz) (hfsz : fsz < 2 ^ 31) (hpcsz : 1 ≤ pcsz)
    (hlen : s.cache.file.data.length = fsz) :
    (∀ p < npcsOf fsz pcsz, s.bfield.exists p = .ok false → ∀ piece,
      (∃ r s', s.addPiece p piece = .ok (r,s') ∧ s.FramedAdd s' p) ↔
        s.cache.CanPut (s.cache.getPos p) ∧ (p + 1) * pcsz ≤ fsz) ∧
    ∀ hist t, Run (ExecStep call) s hist t → (∀ e ∈ hist, e.2.1.Adds (npcsOf fsz pcsz)) →
      (t.cache.file.data.length = fsz ↔ AllFit fsz pcsz hist) :=
  ⟨fun _ hp hmiss _ => hs.framed_iff hfsz hpcsz hlen hp hmiss,
    fun _ _ run hadds => (hs.run_length hfsz hpcsz hlen run hadds).2.2⟩

/-- The store of a node without the file. -/
def threeBytes : ObjStore :=
  ObjStore.bfieldInit ⟨3,2,2,⟨∅,[],[],⟨[],0⟩,2,2,cachesz / 2⟩,⟨[]⟩⟩ false []

theorem threeBytes_builtFor : threeBytes.BuiltFor 3 2 :=
  ⟨rfl,rfl,rfl,rfl,fun _ ha => absurd ha List.not_mem_nil⟩

/-- A file of three bytes in pieces of two. -/
theorem add_frame_three :
    (∀ p < npcsOf 3 2, threeBytes.bfield.exists p = .ok false → ∀ piece,
      (∃ r s', threeBytes.addPiece p piece = .ok (r,s') ∧ threeBytes.FramedAdd s' p) ↔
        threeBytes.cache.CanPut (threeBytes.cache.getPos p) ∧ (p + 1) * 2 ≤ 3) ∧
    ∀ hist t, Run (ExecStep call) threeBytes hist t → (∀ e ∈ hist, e.2.1.Adds (npcsOf 3 2)) →
      (t.cache.file.data.length = 3 ↔ AllFit 3 2 hist) :=
  add_frame_iff threeBytes_builtFor (by decide) (by decide) rfl

/-- Its second piece makes the file four bytes long. -/
theorem add_not_framed : threeBytes.cache.file.data.length = 3 ∧ 1 < npcsOf 3 2 ∧
    threeBytes.bfield.exists (1 : ℕ) = .ok false ∧
    ∃ r s', threeBytes.addPiece (1 : ℕ) [some 7,some 0] = .ok (r,s') ∧
      s'.cache.file.data.length = 4 ∧ ¬ threeBytes.FramedAdd s' 1 := by
  have hmiss : threeBytes.bfield.exists (1 : ℕ) = .ok false := by decide
  have hcan : threeBytes.cache.CanPut (threeBytes.cache.getPos (1 : ℕ)) := by
    intro hfull
    exact absurd hfull (by simp [threeBytes,bfieldInit,cachesz])
  obtain ⟨r,s',h⟩ :=
    (threeBytes_builtFor.add_returns_iff (by decide) (by decide) (by decide) hmiss).mpr hcan
  have hlen := threeBytes_builtFor.add_length (by decide) (by decide) (by decide) hmiss h
  replace hlen : s'.cache.file.data.length = 4 := hlen
  refine ⟨rfl,by decide,hmiss,r,s',h,hlen,fun hframe => ?_⟩
  exact absurd (hframe.length.symm.trans hlen) (by decide)

end ObjStore

end BTRx
