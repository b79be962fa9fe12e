import BTRx.Base.WriteOnce
import BTRx.ObjStore.Transparency

/-! # The store as cells that keep their first value

`contents` reads the bitfield and the file together and does not look at the cache. Whatever
the cache does, a call that returns writes at most one cell, and only one that was empty.
-/
namespace BTRx
open Memory ByteSet Transition

/-- What a call offers to the store. -/
def StoreCall.stores (pcsz : ℕ) : StoreCall → Option (ℕ × List Cell)
  | .add p piece => some (p,window pcsz piece)
  | .get _ => none

/-- A write fills the place of its piece and leaves the others alone, as long as those in front of it
lie inside the file. -/
theorem Cache.put_region {c c' : Cache} {p : ℕ} {piece : List Cell} (hpos : 0 < c.pcsz)
    (hget : c.getPos p = (p * c.pcsz : ℕ)) (hput : c.put p piece = .ok c') : c.SameShape c' ∧
      c'.file.data.length = max c.file.data.length ((p + 1) * c.pcsz) ∧
      ∀ q, (q < p → (q + 1) * c.pcsz ≤ c.file.data.length) → c'.file.region (q * c.pcsz) c.pcsz =
        if q = p then window c.pcsz piece else c.file.region (q * c.pcsz) c.pcsz := by
  rw [put_natCast hget] at hput
  obtain ⟨hshape,hfile⟩ := (updateCache_eq_ok.mp hput).frame
  have hdata : c'.file.data = File.overwrite c.file.data (p * c.pcsz) (window c.pcsz piece) := by
    rw [hfile,written_data]
  have hne := window_ne_nil hpos piece
  refine ⟨hshape,by rw [hdata,File.overwrite_length hne,window_length,Nat.succ_mul],fun q hq => ?_⟩
  simp only [File.region,hdata]
  by_cases hqp : q = p
  · subst hqp
    have hself := @File.region_overwrite_self c.file.data _ (q * c.pcsz) hne
    rw [window_length] at hself
    rw [if_pos rfl,hself]
  · rw [if_neg hqp,File.region_overwrite_of_disjoint hne]
    rw [window_length]
    rcases Nat.lt_or_gt_of_ne hqp with hlt | hlt
    · have hin := hq hlt
      rw [Nat.succ_mul] at hin
      exact Or.inr ⟨Blocks.end_le (Nat.zero_le c.pcsz) hlt,hin⟩
    · exact Or.inl (Blocks.end_le (Nat.zero_le c.pcsz) hlt)

namespace ObjStore
variable {s s' t : ObjStore} {x : StoreCall} {r : ℕ × List Cell} {fsz pcsz p : ℕ}

theorem call_pcsz (h : s.call x = .ok (r,s')) : s'.pcsz = s.pcsz := by
  rcases call_cases h with ⟨rfl,_⟩ | ⟨_,_,_,_,_,_,_,rfl⟩ | ⟨_,_,_,_,_,_,_,rfl⟩ <;> rfl

/-- What the file has at the place of a held piece. -/
def contents (s : ObjStore) (p : ℕ) : Option (List Cell) :=
  if bitAt s.bfield.bfield p then some (s.cache.file.region (p * s.pcsz) s.pcsz) else none

/-- All positions are of type `int`, and a held piece lies inside the file while a later one is missing. -/
structure Settled (s : ObjStore) : Prop where
  pcsz : s.cache.pcsz = s.pcsz
  pcsz_pos : 0 < s.pcsz
  room : 8 * s.bfield.bfield.length * s.pcsz ≤ 2 ^ 31
  inside : ∀ p q, bitAt s.bfield.bfield p = true → bitAt s.bfield.bfield q = false → p < q →
    q < 8 * s.bfield.bfield.length → (p + 1) * s.pcsz ≤ s.cache.file.data.length

theorem Settled.getPos (h : s.Settled) (hp : p < 8 * s.bfield.bfield.length) :
    s.cache.getPos p = (p * s.pcsz : ℕ) := by
  have hroom := h.room
  have hpos := h.pcsz_pos
  have hlt : p * s.pcsz < 8 * s.bfield.bfield.length * s.pcsz := Nat.mul_lt_mul_of_pos_right hp hpos
  have hcomm : (s.cache.pcsz : ℤ) * p = ((p * s.pcsz : ℕ) : ℤ) := by
    rw [h.pcsz,Nat.cast_mul,mul_comm]
  rw [Cache.getPos,hcomm]
  exact toInt_of_lt (by omega) (by omega)

/-- A read leaves the file and the bitfield alone. -/
theorem Settled.get (h : s.Settled) {buf : List Cell} {cache : Cache} (hget : s.cache.get p = .ok (buf,cache)) :
    Settled { s with cache } ∧ contents { s with cache } = s.contents := by
  obtain ⟨hshape,hdata⟩ := Cache.get_frame hget
  refine ⟨⟨hshape.1.trans h.pcsz,h.pcsz_pos,h.room,fun p q hp hq hlt hle => ?_⟩,?_⟩
  · rw [hdata]
    exact h.inside p q hp hq hlt hle
  · funext q
    simp only [contents,File.region,hdata]

/-- A write fills the cell of a missing piece. -/
theorem Settled.put (h : s.Settled) (hp : p < 8 * s.bfield.bfield.length) (hbit : bitAt s.bfield.bfield p = false)
    {piece : List Cell} {cache : Cache} (hput : s.cache.put p piece = .ok cache) :
    Settled { s with cache, bfield := ⟨setAt s.bfield.bfield p⟩ } ∧
      contents { s with cache, bfield := ⟨setAt s.bfield.bfield p⟩ } =
        WriteOnce.write s.contents (p,window s.pcsz piece) := by
  have hpc := h.pcsz
  have hget := h.getPos hp
  rw [← hpc] at hget
  obtain ⟨hshape,hlen,hregion⟩ := Cache.put_region (by rw [hpc]; exact h.pcsz_pos) hget hput
  rw [hpc] at hlen hregion
  refine ⟨⟨hshape.1.trans hpc,h.pcsz_pos,?_,fun a b ha hb hab hle => ?_⟩,?_⟩
  · rw [setAt_length]
    exact h.room
  · rw [setAt_length] at hle
    rw [bitAt_setAt hp,Bool.or_eq_true,decide_eq_true_eq] at ha
    rw [bitAt_setAt hp,Bool.or_eq_false_iff] at hb
    simp only [hlen]
    rcases ha with ha | rfl
    · exact (h.inside a b ha hb.1 hab hle).trans (Nat.le_max_left _ _)
    · exact Nat.le_max_right _ _
  · funext q
    rw [WriteOnce.write_apply,WriteOnce.offer]
    simp only [contents,bitAt_setAt hp]
    by_cases hqp : p = q
    · subst hqp
      have hself := hregion p fun hlt => absurd hlt (lt_irrefl p)
      rw [if_pos rfl] at hself
      simp [hbit,hself]
    · rw [decide_eq_false hqp,Bool.or_false,if_neg hqp,Option.or_none]
      cases hq : bitAt s.bfield.bfield q with
      | false => rfl
      | true =>
        have hother := hregion q fun hlt => h.inside q p hq hbit hlt hp
        rw [if_neg (Ne.symm hqp)] at hother
        rw [if_pos rfl,if_pos rfl,hother]

/-- One call writes at most one cell. -/
theorem Settled.call (h : s.Settled) (hcall : s.call x = .ok (r,s')) : s'.Settled ∧
    s'.contents = (x.stores s.pcsz).elim s.contents (WriteOnce.write s.contents) := by
  rcases call_cases hcall with ⟨rfl,hheld⟩ | ⟨p,buf,cache,rfl,_,_,hget,rfl⟩ | ⟨p,piece,cache,rfl,hp,hbit,hput,rfl⟩
  · refine ⟨h,?_⟩
    cases x with
    | get p => rfl
    | add p piece =>
      have hsome : s'.contents p = some _ := if_pos (hheld p piece rfl)
      exact (WriteOnce.write_of_some hsome _).symm
  · exact h.get hget
  · exact h.put hp hbit hput

/-- After any calls in any order, each piece has what the store had of it, or else the first buffer
that was added for it. -/
theorem contents_run {s₀ : ObjStore} {hist : List (ObjStore × StoreCall × ℕ × List Cell)}
    (run : Run (ExecStep call) s₀ hist t) (h : s₀.Settled) :
    t.contents = WriteOnce.writeAll s₀.contents (hist.filterMap fun e => e.2.1.stores s₀.pcsz).reverse := by
  refine (WriteOnce.of_run (P := fun s => s.Settled ∧ s.pcsz = s₀.pcsz) (A := fun _ => True) run contents _
    ⟨h,rfl⟩ (fun _ _ => trivial) ?_).2
  rintro s l u ⟨hs,hpc⟩ _ hx
  obtain ⟨hs',hc⟩ := hs.call hx
  rw [hpc] at hc
  exact ⟨⟨hs',(call_pcsz hx).trans hpc⟩,hc⟩

/-- The store that `bfield_init` leaves. With the file, the bits it does not set are those of
pieces in front of the last one. -/
theorem settled_init (hpos : 0 < pcsz) (hfits : fsz + 8 * pcsz ≤ 2 ^ 31)
    (hnew : ObjStore.new fsz pcsz (npcsOf fsz pcsz) = .ok s) (hasfile : Bool) {disk : List Cell}
    (hdisk : hasfile = true → disk.length = fsz) : (s.bfieldInit hasfile disk).Settled := by
  obtain ⟨hne,rfl⟩ := new_eq_ok.mp hnew
  have hlen := Bfield.ofFile_length hasfile (npcsOf fsz pcsz)
  have hstarts := fun p => @npcsOf_starts fsz pcsz p hpos
  refine ⟨rfl,hpos,?_,fun p q hp hq hlt hle => ?_⟩
  · have hlast := hstarts (npcsOf fsz pcsz - 1) (by omega)
    have hbytes : 8 * ((npcsOf fsz pcsz + 7) / 8) ≤ (npcsOf fsz pcsz - 1) + 8 := by omega
    have hmul := Nat.mul_le_mul_right pcsz hbytes
    rw [Nat.add_mul] at hmul
    simp only [bfieldInit,hlen]
    omega
  · simp only [bfieldInit,hlen] at hp hq hle
    rw [Bfield.bitAt_ofFile (hlt.trans hle)] at hp
    rw [Bfield.bitAt_ofFile hle] at hq
    cases hasfile with
    | false => cases hp
    | true =>
      have hqn : q < 8 * (npcsOf fsz pcsz / 8) := by
        by_contra hge
        rw [not_lt] at hge
        simp [hge] at hq
      have hq' := hstarts q (by omega)
      have hend := Blocks.end_le (Nat.zero_le pcsz) hlt
      simp only [smul_eq_mul] at hend
      simp only [bfieldInit,if_true,hdisk rfl,Nat.succ_mul]
      omega

end ObjStore
end BTRx
