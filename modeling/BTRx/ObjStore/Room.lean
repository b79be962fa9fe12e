import BTRx.ObjStore.Budget
import BTRx.ObjStore.Transparency

/-! # A cache with an entry for every position

While no more positions are asked for than the deque has entries, nothing is evicted and
every recorded index is inside the deque. A hit may still move the wrong entry, so that a
read may deliver another piece, but every access returns.
-/
namespace BTRx
open Memory ByteSet Transition

namespace Cache
variable {c c' : Cache} {keys : Finset ℤ} {pos : ℤ} {buf : List Cell}

/-- The cache knows positions of `keys` only, and has an entry for each of them. -/
structure Roomy (keys : Finset ℤ) (c : Cache) : Prop where
  owned : c.Owned
  inside : ∀ pos idx, c.cmap.lookup pos = some idx → idx < c.cvec.length
  known : ∀ pos ∈ c.cmap, pos ∈ keys
  length : c.cvec.length = c.cmap.keys.length
  room : keys.card ≤ c.maxsz

theorem Roomy.withFile (h : c.Roomy keys) (file : File) : Roomy keys { c with file } :=
  ⟨h.owned,h.inside,h.known,h.length,h.room⟩

/-- A position that is not mapped leaves an entry free. -/
theorem Roomy.lt_maxsz (h : c.Roomy keys) (hpos : pos ∈ keys) (hmiss : c.cmap.lookup pos = none) :
    c.cvec.length < c.maxsz := by
  have hsub : c.cmap.keys.toFinset ⊂ keys := by
    refine (Finset.ssubset_iff_of_subset fun q hq => ?_).mpr ⟨pos,hpos,fun hmem => ?_⟩
    · exact h.known q (AList.mem_keys.mpr (List.mem_toFinset.mp hq))
    · exact AList.lookup_eq_none.mp hmiss (AList.mem_keys.mpr (List.mem_toFinset.mp hmem))
  have hcard := Finset.card_lt_card hsub
  rw [List.toFinset_card_of_nodup (AList.keys_nodup _),← h.length] at hcard
  exact hcard.trans_le h.room

theorem Roomy.canPut (h : c.Roomy keys) (hpos : pos ∈ keys) : c.CanPut pos := by
  unfold CanPut
  cases hl : c.cmap.lookup pos with
  | some idx => exact h.inside pos idx hl
  | none => exact fun hfull => absurd hfull (h.lt_maxsz hpos hl).ne

theorem Roomy.canGet (h : c.Roomy keys) (hpos : pos ∈ keys) : c.CanGet pos := by
  unfold CanGet
  cases hl : c.cmap.lookup pos with
  | some idx =>
    have hidx := h.inside pos idx hl
    obtain ⟨acc,hacc,_⟩ := h.owned _ (List.getElem_mem hidx)
    exact ⟨_,List.getElem?_eq_getElem hidx,acc,hacc⟩
  | none => exact fun hfull => absurd hfull (h.lt_maxsz hpos hl).ne

/-- The step lemma: an access evicts nothing. -/
theorem Roomy.accessed (h : c.Roomy keys) (hpos : pos ∈ keys) (hx : c.Accessed pos buf c') :
    c'.Roomy keys := by
  have hroom : pos ∈ c.cmap ∨ c.cvec.length ≠ c.maxsz := by
    cases hl : c.cmap.lookup pos with
    | some idx => exact Or.inl (AList.lookup_isSome.mp (by rw [hl]; rfl))
    | none => exact Or.inr (h.lt_maxsz hpos hl).ne
  obtain ⟨howned,hkeys⟩ := hx.grow h.owned hroom
  have hknown : ∀ q ∈ c'.cmap, q ∈ keys := by
    intro q hq
    rcases (hkeys q).mp hq with rfl | hq
    · exact hpos
    · exact h.known q hq
  have hmax : keys.card ≤ c'.maxsz := h.room.trans_eq hx.frame.1.2.2.symm
  cases hx with
  | @hit idx front rest hl hv hidx =>
    have hlen : (c.onHit pos idx front).cvec.length = c.cvec.length := by
      simp only [onHit,List.length_append,List.length_singleton,List.length_eraseIdx_of_lt hidx]
      omega
    have hmem : pos ∈ c.cmap.keys := AList.mem_keys.mp (AList.lookup_isSome.mp (by rw [hl]; rfl))
    refine ⟨howned,fun q i hq => ?_,hknown,?_,hmax⟩
    · rw [hlen]
      rw [onHit,PosMap.lookup_insertNew (AList.lookup_erase _ _)] at hq
      split at hq
      · cases hq
        omega
      · rename_i hne
        rw [AList.lookup_erase_ne hne] at hq
        exact h.inside q i hq
    · have hpos' := List.length_pos_of_mem hmem
      rw [hlen,onHit,keys_insertNew (AList.lookup_erase _ _),AList.keys_erase,List.length_erase_of_mem hmem,
        h.length]
      omega
  | room hl hne =>
    have hlen : (c.onRoom pos buf).cvec.length = c.cvec.length + 1 := by simp [onRoom]
    refine ⟨howned,fun q i hq => ?_,hknown,?_,hmax⟩
    · rw [hlen]
      rw [onRoom,PosMap.lookup_insertNew hl] at hq
      split at hq
      · cases hq
        omega
      · exact Nat.lt_succ_of_lt (h.inside q i hq)
    · rw [hlen,onRoom,keys_insertNew hl,h.length]
  | full hl hfull _ _ => exact absurd hfull (h.lt_maxsz hpos hl).ne

theorem Roomy.get (h : c.Roomy keys) {pcno : ℤ} (hpos : c.getPos pcno ∈ keys) {out : List Cell}
    (hget : c.get pcno = .ok (out,c')) : c'.Roomy keys := by
  obtain ⟨file,_,_,_,hx⟩ := get_eq_ok hget
  exact (h.withFile file).accessed hpos hx

theorem Roomy.put (h : c.Roomy keys) {pcno : ℤ} (hpos : c.getPos pcno ∈ keys) {piece : List Cell}
    (hput : c.put pcno piece = .ok c') : c'.Roomy keys := by
  obtain ⟨file,_,hx⟩ := put_eq_ok hput
  exact (h.withFile _).accessed hpos hx

end Cache

namespace ObjStore
variable {s s' t : ObjStore} {x : StoreCall} {r : ℕ × List Cell}

/-- The cache has an entry for every piece that has a bit, and these pieces have positions. -/
structure HasRoom (s : ObjStore) : Prop where
  entries : 8 * s.bfield.bfield.length ≤ s.cache.maxsz
  positions : 8 * s.bfield.bfield.length * s.cache.pcsz ≤ 2 ^ 31

/-- The positions of the pieces that have a bit. -/
def starts (s : ObjStore) : Finset ℤ :=
  (Finset.range (8 * s.bfield.bfield.length)).image fun p : ℕ => s.cache.getPos p

theorem getPos_mem_starts {p : ℕ} (hp : p < 8 * s.bfield.bfield.length) : s.cache.getPos p ∈ s.starts :=
  Finset.mem_image_of_mem _ (Finset.mem_range.mpr hp)

theorem HasRoom.getPos_nonneg (h : s.HasRoom) {p : ℕ} (hp : p < 8 * s.bfield.bfield.length) :
    0 ≤ s.cache.getPos p := by
  have hlt : s.cache.pcsz * p < 2 ^ 31 := by
    rcases Nat.eq_zero_or_pos s.cache.pcsz with h0 | h0
    · simp [h0]
    · rw [Nat.mul_comm]
      exact (Nat.mul_lt_mul_of_pos_right hp h0).trans_le h.positions
  have hint : s.cache.getPos p = (s.cache.pcsz * p : ℕ) := by
    rw [Cache.getPos]
    exact_mod_cast toInt_of_lt (by positivity) (by exact_mod_cast hlt)
  rw [hint]
  exact Int.natCast_nonneg _

/-- What no call changes. -/
theorem call_shape (h : s.call x = .ok (r,s')) :
    s'.bfield.bfield.length = s.bfield.bfield.length ∧ s.cache.SameShape s'.cache := by
  rcases call_cases h with ⟨rfl,_⟩ | ⟨p,buf,c,_,_,_,hget,rfl⟩ | ⟨p,piece,c,_,_,_,hput,rfl⟩
  · exact ⟨rfl,rfl,rfl,rfl⟩
  · exact ⟨rfl,(Cache.get_frame hget).1⟩
  · obtain ⟨file,_,hx⟩ := Cache.put_eq_ok hput
    exact ⟨setAt_length _ _,hx.frame.1⟩

theorem hasRoom_call (h : s.call x = .ok (r,s')) : s'.HasRoom ↔ s.HasRoom := by
  obtain ⟨hlen,hpcsz,_,hmax⟩ := call_shape h
  constructor
  · rintro ⟨he,hp⟩
    rw [hlen] at he hp
    rw [hmax] at he
    rw [hpcsz] at hp
    exact ⟨he,hp⟩
  · rintro ⟨he,hp⟩
    refine ⟨?_,?_⟩
    · rwa [hlen,hmax]
    · rwa [hlen,hpcsz]

theorem starts_call (h : s.call x = .ok (r,s')) : s'.starts = s.starts := by
  obtain ⟨hlen,hpcsz,_,_⟩ := call_shape h
  simp only [starts,Cache.getPos,hlen,hpcsz]

theorem roomy_call (h : s.cache.Roomy s.starts) (hx : s.call x = .ok (r,s')) : s'.cache.Roomy s'.starts := by
  rw [starts_call hx]
  rcases call_cases hx with ⟨rfl,_⟩ | ⟨p,buf,c,_,hlt,_,hget,rfl⟩ | ⟨p,piece,c,_,hlt,_,hput,rfl⟩
  · exact h
  · exact h.get (getPos_mem_starts hlt) hget
  · exact h.put (getPos_mem_starts hlt) hput

theorem roomy_bfieldInit {fsz pcsz npcs : ℕ} {s₀ : ObjStore} (hnew : ObjStore.new fsz pcsz npcs = .ok s₀)
    {hasfile : Bool} {disk : List Cell} (hroom : (s₀.bfieldInit hasfile disk).HasRoom) :
    (s₀.bfieldInit hasfile disk).cache.Roomy (s₀.bfieldInit hasfile disk).starts := by
  obtain ⟨_,rfl⟩ := new_eq_ok.mp hnew
  refine ⟨fun a ha => absurd ha List.not_mem_nil,fun pos idx hl => ?_,
    fun pos hpos => absurd hpos (AList.notMem_empty pos),rfl,?_⟩
  · cases hl
  · exact (Finset.card_image_le.trans_eq (Finset.card_range _)).trans hroom.entries

/-- The run lemma: a store with room at its end had room all along. -/
theorem roomy_run {fsz pcsz npcs : ℕ} {s₀ : ObjStore} (hnew : ObjStore.new fsz pcsz npcs = .ok s₀)
    {hasfile : Bool} {disk : List Cell} {hist : List (ObjStore × StoreCall × ℕ × List Cell)}
    (run : Run (ExecStep call) (s₀.bfieldInit hasfile disk) hist t) (hroom : t.HasRoom) :
    t.cache.Roomy t.starts := by
  refine run.preserves (P := fun t => t.HasRoom → t.cache.Roomy t.starts) (roomy_bfieldInit hnew) ?_ hroom
  rintro t ⟨x,r⟩ u h last hu
  exact roomy_call (h ((hasRoom_call last).mp hu)) last

theorem HasRoom.call_returns (h : s.HasRoom) (hc : s.cache.Roomy s.starts)
    (hx : x.pcno < 8 * s.bfield.bfield.length) : ∃ r s', s.call x = .ok (r,s') := by
  cases x with
  | add p piece =>
    replace hx : p < 8 * s.bfield.bfield.length := hx
    cases hbit : bitAt s.bfield.bfield p with
    | true => exact ⟨_,s,by rw [ObjStore.call,addPiece_of_held hx hbit]; rfl⟩
    | false =>
      obtain ⟨c,hput⟩ := Cache.put_returns (h.getPos_nonneg hx) (hc.canPut (getPos_mem_starts hx)) piece
      exact ⟨_,_,by rw [ObjStore.call,addPiece_of_missing hx hbit,hput]; rfl⟩
  | get p =>
    replace hx : p < 8 * s.bfield.bfield.length := hx
    cases hbit : bitAt s.bfield.bfield p with
    | false => exact ⟨_,s,by rw [ObjStore.call,getPiece_of_missing hx hbit]; rfl⟩
    | true =>
      obtain ⟨out,c,hget⟩ := Cache.get_returns (hc.canGet (getPos_mem_starts hx))
      exact ⟨_,_,by rw [ObjStore.call,getPiece_of_held hx hbit,hget]; rfl⟩

theorem hasRoom_bfieldInit {fsz pcsz npcs : ℕ} {s₀ : ObjStore} (hnew : ObjStore.new fsz pcsz npcs = .ok s₀)
    (hcap : 8 * ((npcs + 7) / 8) ≤ cachesz / npcs) (hpos : 8 * ((npcs + 7) / 8) * pcsz ≤ 2 ^ 31)
    (hasfile : Bool) (disk : List Cell) : (s₀.bfieldInit hasfile disk).HasRoom := by
  obtain ⟨_,rfl⟩ := new_eq_ok.mp hnew
  have hlen := Bfield.ofFile_length hasfile npcs
  exact ⟨by simpa only [bfieldInit,hlen] using hcap,by simpa only [bfieldInit,hlen] using hpos⟩

/-- Where the budget has an entry for every piece, no run of calls comes to a call that does not return. -/
theorem calls_return {fsz pcsz npcs : ℕ} {s₀ : ObjStore} (hnew : ObjStore.new fsz pcsz npcs = .ok s₀)
    (hcap : 8 * ((npcs + 7) / 8) ≤ cachesz / npcs) (hpos : 8 * ((npcs + 7) / 8) * pcsz ≤ 2 ^ 31)
    {hasfile : Bool} {disk : List Cell} {hist : List (ObjStore × StoreCall × ℕ × List Cell)}
    (run : Run (ExecStep call) (s₀.bfieldInit hasfile disk) hist t) (hx : x.pcno < npcs) :
    ∃ r t', t.call x = .ok (r,t') := by
  have hstart := hasRoom_bfieldInit hnew hcap hpos hasfile disk
  have hinv : t.HasRoom ∧ t.bfield.bfield.length = (npcs + 7) / 8 := by
    refine run.preserves (P := fun t => t.HasRoom ∧ t.bfield.bfield.length = (npcs + 7) / 8) ⟨hstart,?_⟩ ?_
    · obtain ⟨_,rfl⟩ := new_eq_ok.mp hnew
      exact Bfield.ofFile_length hasfile npcs
    · rintro t ⟨x,r⟩ u ⟨hroom,hlen⟩ last
      exact ⟨(hasRoom_call last).mpr hroom,(call_shape last).1.trans hlen⟩
  exact hinv.1.call_returns (roomy_run hnew run hinv.1) (by omega)

/-- Reads and writes of a store of two pieces, after which a third call returns. -/
theorem calls_return_two : ∃ s₀ hist t, ObjStore.new 4 2 2 = .ok s₀ ∧
    Run (ExecStep call) (s₀.bfieldInit true [some 97,some 98,some 99,some 100]) hist t ∧
    hist.map (fun e => e.2.1) = [.get 1,.get 0] ∧ ∃ r t', t.call (.get 0) = .ok (r,t') := by
  obtain ⟨s₀,hs,h⟩ : ∃ s₀, ObjStore.new 4 2 2 = .ok s₀ ∧ ((execAll call [.get 0,.get 1] []
      (s₀.bfieldInit true [some 97,some 98,some 99,some 100])).toOption.any fun r =>
        decide (r.1.map (fun e => e.2.1) = [.get 1,.get 0])) = true := ⟨_,rfl,by decide +kernel⟩
  obtain ⟨hist,t,run,hcalls⟩ := exists_run (P := fun hist _ => decide (hist.map _ = _)) h
  exact ⟨s₀,hist,t,hs,run,of_decide_eq_true hcalls,calls_return hs (by decide) (by decide) run (by decide)⟩

end ObjStore

end BTRx
