import BTRx.ObjStore.Transparency

/-! # The first write of a piece stays

Calls of `add_piece` alone never hit the cache: a key in it is the position of a piece
that is held, and `add_piece` does not store a held piece again. The indices that
`update_cache` records are then never followed, and every call returns.
-/
namespace BTRx
open Memory ByteSet Transition

/-! ## Misses -/

namespace Cache
variable {c : Cache} {pos : ℤ} {buf : List Cell}

/-- No pointer of the deque is there twice or leads to a deleted object. -/
structure Intact (c : Cache) : Prop where
  nodup : c.cvec.Nodup
  live : ∀ a ∈ c.cvec, ∃ acc, c.heap[a]? = some (some acc)

theorem Intact.fresh (h : c.Intact) : c.heap.length ∉ c.cvec := by
  intro hmem
  obtain ⟨acc,hacc⟩ := h.live _ hmem
  exact absurd (List.getElem?_eq_some_iff.mp hacc).1 (lt_irrefl _)

theorem Intact.allocate (h : c.Intact) {a : ℕ} (ha : a ∈ c.cvec) (pos : ℤ) (buf : List Cell) :
    ∃ acc, (c.allocate pos buf)[a]? = some (some acc) := by
  obtain ⟨acc,hacc⟩ := h.live a ha
  exact ⟨acc,by rw [Cache.allocate,List.getElem?_append_left (List.getElem?_eq_some_iff.mp hacc).1,hacc]⟩

theorem Intact.room (h : c.Intact) : (c.onRoom pos buf).Intact := by
  refine ⟨List.nodup_append.mpr ⟨h.nodup,List.nodup_singleton _,?_⟩,fun a ha => ?_⟩
  · intro a ha b hb hab
    rw [List.mem_singleton.mp hb] at hab
    exact h.fresh (hab ▸ ha)
  · rcases List.mem_append.mp ha with ha | ha
    · exact h.allocate ha pos buf
    · rw [List.mem_singleton.mp ha]
      exact ⟨⟨pos,buf⟩,List.getElem?_concat_length⟩

/-- The front that is deleted is not there any more. -/
theorem Intact.full (h : c.Intact) {front : ℕ} {rest : List ℕ} (hv : c.cvec = front :: rest) (old : ℤ) :
    (c.onFull pos buf front old).Intact := by
  have hnd := h.nodup
  rw [hv,List.nodup_cons] at hnd
  have hmem : ∀ a ∈ rest, a ∈ c.cvec := fun a ha => by
    rw [hv]
    exact List.mem_cons_of_mem _ ha
  have hfront : front ≠ c.heap.length := by
    rintro rfl
    exact h.fresh (by rw [hv]; exact List.mem_cons_self)
  refine ⟨?_,fun a ha => ?_⟩
  · simp only [onFull,hv,List.tail_cons]
    refine List.nodup_append.mpr ⟨hnd.2,List.nodup_singleton _,?_⟩
    intro a ha b hb hab
    rw [List.mem_singleton.mp hb] at hab
    exact h.fresh (hab ▸ hmem a ha)
  · simp only [onFull,hv,List.tail_cons,List.mem_append,List.mem_singleton] at ha ⊢
    rcases ha with ha | rfl
    · have hne : front ≠ a := by
        rintro rfl
        exact hnd.1 ha
      rw [List.getElem?_set_ne hne]
      exact h.allocate (hmem a ha) pos buf
    · rw [List.getElem?_set_ne hfront]
      exact ⟨⟨pos,buf⟩,List.getElem?_concat_length⟩

/-- A miss returns, and brings in no key but its own. -/
theorem Intact.miss (h : c.Intact) (hmax : 1 ≤ c.maxsz) (hl : c.cmap.lookup pos = none) :
    ∃ c', c.updateCache pos buf = .ok c' ∧ c'.Intact ∧ ∀ q ∈ c'.cmap, q = pos ∨ q ∈ c.cmap := by
  by_cases hfull : c.cvec.length = c.maxsz
  · obtain ⟨front,rest,hv⟩ := List.exists_cons_of_length_pos (Nat.lt_of_lt_of_eq hmax hfull.symm)
    obtain ⟨old,hold⟩ := h.allocate (show front ∈ c.cvec by rw [hv]; exact List.mem_cons_self) pos buf
    have hx : c.Accessed pos buf _ := .full hl hfull hv hold
    exact ⟨_,updateCache_eq_ok.mpr hx,h.full hv _,fun q => hx.mem_or⟩
  · have hx : c.Accessed pos buf _ := .room hl hfull
    exact ⟨_,updateCache_eq_ok.mpr hx,h.room,fun q => hx.mem_or⟩

end Cache

/-! ## The store -/

/-- A call that adds a whole buffer under the number of a piece. -/
def StoreCall.AddsWhole (npcs pcsz : ℕ) : StoreCall → Prop
  | .add p piece => p < npcs ∧ piece.length = pcsz
  | .get _ => False

namespace ObjStore
variable {s s' t : ObjStore} {fsz pcsz : ℕ} {hist : List (ObjStore × StoreCall × ℕ × List Cell)}

/-- The pieces of the calls of a history. -/
def added (hist : List (ObjStore × StoreCall × ℕ × List Cell)) : List ℕ := hist.map fun e => e.2.1.pcno

/-- The buffer that a call delivers for piece `p`. -/
def delivery (p : ℕ) : StoreCall → Option (List Cell)
  | .add q piece => if q = p then some piece else none
  | .get _ => none

/-- The first buffer that a history, whose newest call stands first, has delivered. -/
def firstDelivery (p : ℕ) (hist : List (ObjStore × StoreCall × ℕ × List Cell)) : Option (List Cell) :=
  hist.reverse.findSome? fun e => delivery p e.2.1

/-- The bitfield has the pieces that were added, and the file has their first buffers. -/
structure Keeps (t : ObjStore) (hist : List (ObjStore × StoreCall × ℕ × List Cell)) : Prop where
  bits : ∀ p, p < t.npcs → t.bfield.exists p = .ok (decide (p ∈ added hist))
  file : ∀ p piece, firstDelivery p hist = some piece →
    t.cache.file.region (p * t.pcsz) t.pcsz = piece

/-- What every call of `add_piece` relies on. -/
structure Filled (s : ObjStore) (hist : List (ObjStore × StoreCall × ℕ × List Cell)) : Prop where
  shape : s.Shape
  room : s.npcs ≤ 8 * s.bfield.bfield.length
  intact : s.cache.Intact
  maxsz : 1 ≤ s.cache.maxsz
  bits : ∀ p, p < s.npcs → bitAt s.bfield.bfield p = decide (p ∈ added hist)
  keys : ∀ q ∈ s.cache.cmap, ∃ p : ℕ, p ∈ added hist ∧ q = (p * s.pcsz : ℕ)
  file : ∀ p piece, firstDelivery p hist = some piece →
    s.cache.file.region (p * s.pcsz) s.pcsz = piece

theorem Filled.keeps (h : s.Filled hist) : s.Keeps hist :=
  ⟨fun p hp => by rw [Bfield.exists_of_lt (lt_of_lt_of_le hp h.room),h.bits p hp],h.file⟩

theorem firstDelivery_cons (p : ℕ) (e : ObjStore × StoreCall × ℕ × List Cell) :
    firstDelivery p (e :: hist) = (firstDelivery p hist).or (delivery p e.2.1) := by
  simp [firstDelivery,List.findSome?_append]

theorem firstDelivery_eq_none {p : ℕ} (h : p ∉ added hist) : firstDelivery p hist = none := by
  rw [firstDelivery,List.findSome?_eq_none_iff]
  intro e he
  have hne : e.2.1.pcno ≠ p := fun heq => h (heq ▸ List.mem_map_of_mem (List.mem_reverse.mp he))
  cases hx : e.2.1 with
  | add q piece =>
    rw [hx] at hne
    exact if_neg hne
  | get q => rfl

theorem firstDelivery_of_added {n pcsz p : ℕ} (hadds : ∀ e ∈ hist, e.2.1.AddsWhole n pcsz)
    (h : p ∈ added hist) : ∃ piece, firstDelivery p hist = some piece := by
  obtain ⟨e,he,rfl⟩ := List.mem_map.mp h
  rw [← Option.isSome_iff_exists,firstDelivery,List.findSome?_isSome_iff]
  refine ⟨e,List.mem_reverse.mpr he,?_⟩
  cases hx : e.2.1 with
  | add q piece => simp [delivery,StoreCall.pcno]
  | get q => exact absurd (hadds e he) (by rw [hx]; exact False.elim)

/-- A piece that was added before is left as it is. -/
theorem Filled.again (h : s.Filled hist) {p : ℕ} (hp : p < s.npcs) (hmem : p ∈ added hist)
    (piece : List Cell) : s.call (.add p piece) = .ok ((0,[]),s) := by
  have hbit : bitAt s.bfield.bfield p = true := by rw [h.bits p hp,decide_eq_true hmem]
  rw [call,addPiece_of_held (lt_of_lt_of_le hp h.room) hbit]
  rfl

/-- A new piece is written in front of or behind the pieces in the file. -/
theorem Filled.file_written (h : s.Filled hist) {p : ℕ} (hp : p < s.npcs) (hmem : p ∉ added hist)
    {piece : List Cell} (hlen : piece.length = s.pcsz) {q : ℕ} {out : List Cell}
    (hq : (firstDelivery q hist).or (delivery q (.add p piece)) = some out) :
    (s.cache.written (p * s.pcsz) piece).region (q * s.pcsz) s.pcsz = out := by
  have hpc := h.shape.pcsz
  have hwindow : window s.cache.pcsz piece = piece := window_eq_self (hlen.trans hpc.symm)
  have hne : piece ≠ [] := by
    rintro rfl
    have := h.shape.pcsz_pos
    simp only [List.length_nil] at hlen
    omega
  simp only [File.region,Cache.written_data,hwindow]
  by_cases hqp : q = p
  · subst hqp
    rw [firstDelivery_eq_none hmem,Option.none_or,delivery,if_pos rfl] at hq
    cases hq
    rw [← hlen]
    exact File.region_overwrite_self _ hne
  · rw [delivery,if_neg (Ne.symm hqp),Option.or_none] at hq
    have hstart := h.shape.starts p hp
    have hfile := h.shape.file
    rw [File.region_overwrite_of_disjoint hne]
    · exact h.file q out hq
    · rw [hlen]
      rcases piece_disjoint hqp with hd | hd
      · exact Or.inl hd
      · exact Or.inr ⟨hd,by omega⟩

theorem Filled.missing (h : s.Filled hist) {p : ℕ} (hmem : p ∉ added hist) :
    s.cache.cmap.lookup ((p * s.pcsz : ℕ) : ℤ) = none := by
  refine AList.lookup_eq_none.mpr fun hkey => ?_
  obtain ⟨k,hk,hpos⟩ := h.keys _ hkey
  have hpk : p = k := Nat.eq_of_mul_eq_mul_right h.shape.pcsz_pos (by exact_mod_cast hpos)
  exact hmem (hpk ▸ hk)

/-- A new piece is stored. -/
theorem Filled.first (h : s.Filled hist) {p : ℕ} (hp : p < s.npcs) (hmem : p ∉ added hist)
    {piece : List Cell} (hlen : piece.length = s.pcsz) : ∃ s', s.call (.add p piece) = .ok ((1,[]),s') ∧
      s'.Filled ((s,.add p piece,1,[]) :: hist) ∧ s'.npcs = s.npcs ∧ s'.pcsz = s.pcsz := by
  have hlt := lt_of_lt_of_le hp h.room
  have hbit : bitAt s.bfield.bfield p = false := by rw [h.bits p hp,decide_eq_false hmem]
  have hintact : Cache.Intact { s.cache with file := s.cache.written (p * s.pcsz) piece } :=
    ⟨h.intact.nodup,h.intact.live⟩
  obtain ⟨cache,hup,hnext,hkeys⟩ :=
    @Cache.Intact.miss _ _ (snprintf s.cache.pcsz piece) hintact h.maxsz (h.missing hmem)
  have hput := (Cache.put_natCast (h.shape.getPos hp) piece).trans hup
  obtain ⟨hsame,hfile⟩ := (Cache.updateCache_eq_ok.mp hup).frame
  refine ⟨{ s with cache, bfield := ⟨setAt s.bfield.bfield p⟩ },?_,?_,rfl,rfl⟩
  · rw [call,addPiece_of_missing hlt hbit,hput]
    rfl
  · refine ⟨h.shape.put _ hput,by simpa using h.room,hnext,?_,?_,?_,?_⟩
    · rw [hsame.2.2]
      exact h.maxsz
    · intro q hq
      have hcons : q ∈ added hist ∨ p = q ↔ q ∈ p :: added hist := by
        rw [List.mem_cons,or_comm,eq_comm]
      rw [bitAt_setAt hlt,h.bits q hq,← Bool.decide_or]
      exact decide_eq_decide.mpr hcons
    · intro q hq
      rcases hkeys q hq with rfl | hq
      · exact ⟨p,List.mem_cons_self,rfl⟩
      · obtain ⟨k,hk,rfl⟩ := h.keys q hq
        exact ⟨k,List.mem_cons_of_mem _ hk,rfl⟩
    · intro q out hq
      rw [firstDelivery_cons] at hq
      simp only [hfile]
      exact h.file_written hp hmem hlen hq

/-- The store after `bfield_init(false)`. -/
theorem filled_init (hpcsz : 1 ≤ pcsz) (hint : fsz < 2 ^ 31) (hcap : npcsOf fsz pcsz ≤ cachesz)
    (hnew : ObjStore.new fsz pcsz (npcsOf fsz pcsz) = .ok s) (disk : List Cell) :
    (s.bfieldInit false disk).Filled [] ∧ (s.bfieldInit false disk).npcs = npcsOf fsz pcsz ∧
      (s.bfieldInit false disk).pcsz = pcsz := by
  have hinit : (s.bfieldInit false disk).Coherent ∧ _ := coherent_init hpcsz hint hnew false nofun
  obtain ⟨hne,rfl⟩ := new_eq_ok.mp hnew
  refine ⟨⟨hinit.1.shape,?_,⟨List.nodup_nil,fun a ha => absurd ha List.not_mem_nil⟩,?_,?_,?_,nofun⟩,rfl,rfl⟩
  · have hlen := Bfield.ofFile_length false (npcsOf fsz pcsz)
    simp only [bfieldInit,hlen]
    omega
  · exact Nat.div_pos hcap (Nat.pos_of_ne_zero hne)
  · intro p hp
    exact Bfield.bitAt_ofFile (show p < 8 * ((npcsOf fsz pcsz + 7) / 8) by
      simp only [bfieldInit] at hp
      omega)
  · intro q hq
    exact absurd hq (AList.notMem_empty q)

theorem Filled.append_again (h : s.Filled hist) {p : ℕ} (hmem : p ∈ added hist) {out : List Cell}
    (hfirst : firstDelivery p hist = some out) (piece : List Cell) (r : ℕ × List Cell) :
    s.Filled ((s,.add p piece,r) :: hist) := by
  have hcons : ∀ q, q ∈ p :: added hist ↔ q ∈ added hist := fun q => by
    rw [List.mem_cons,or_iff_right_iff_imp]
    exact fun hq => hq ▸ hmem
  refine ⟨h.shape,h.room,h.intact,h.maxsz,fun q hq => ?_,fun q hq => ?_,fun q out' hq => ?_⟩
  · rw [h.bits q hq]
    exact decide_eq_decide.mpr (hcons q).symm
  · obtain ⟨k,hk,rfl⟩ := h.keys q hq
    exact ⟨k,List.mem_cons_of_mem _ hk,rfl⟩
  · rw [firstDelivery_cons] at hq
    by_cases hqp : q = p
    · subst hqp
      rw [hfirst,Option.some_or] at hq
      exact h.file q out' (hfirst.trans hq)
    · rw [delivery,if_neg (Ne.symm hqp),Option.or_none] at hq
      exact h.file q out' hq

/-- The next call, with what it leaves. -/
theorem Filled.next (h : s.Filled hist) (hadds : ∀ e ∈ hist, e.2.1.AddsWhole s.npcs s.pcsz) {p : ℕ}
    {piece : List Cell} (hp : p < s.npcs) (hlen : piece.length = s.pcsz) :
    ∃ s', s.call (.add p piece) = .ok ((if p ∈ added hist then 0 else 1,[]),s') ∧
      (p ∈ added hist → s' = s) ∧
      s'.Filled ((s,.add p piece,if p ∈ added hist then 0 else 1,[]) :: hist) ∧
      s'.npcs = s.npcs ∧ s'.pcsz = s.pcsz := by
  by_cases hmem : p ∈ added hist
  · obtain ⟨out,hfirst⟩ := firstDelivery_of_added hadds hmem
    rw [if_pos hmem]
    exact ⟨s,h.again hp hmem piece,fun _ => rfl,h.append_again hmem hfirst piece _,rfl,rfl⟩
  · obtain ⟨s',hcall,hnext,hnp,hpc⟩ := h.first hp hmem hlen
    rw [if_neg hmem]
    exact ⟨s',hcall,fun hm => absurd hm hmem,hnext,hnp,hpc⟩

/-- For every sequence of calls: each returns, and it returns 1 exactly when it is the
first for its piece. Otherwise the store stays as it is. After all of them the bitfield
tells what was added and the file has the first buffers. -/
theorem first_write_wins (hfsz : 1 ≤ fsz) (hint : fsz < 2 ^ 31) (hpcsz : 1 ≤ pcsz)
    (hcap : npcsOf fsz pcsz ≤ cachesz) (disk : List Cell) :
    ∃ s, ObjStore.new fsz pcsz (npcsOf fsz pcsz) = .ok s ∧
      ∀ hist t, Run (ExecStep call) (s.bfieldInit false disk) hist t →
        (∀ e ∈ hist, e.2.1.AddsWhole (npcsOf fsz pcsz) pcsz) → t.Keeps hist ∧
        ∀ p piece, StoreCall.AddsWhole (npcsOf fsz pcsz) pcsz (.add p piece) →
          ∃ t', t.call (.add p piece) = .ok ((if p ∈ added hist then 0 else 1,[]),t') ∧
            (p ∈ added hist → t' = t) := by
  obtain ⟨s,hnew⟩ : ∃ s, ObjStore.new fsz pcsz (npcsOf fsz pcsz) = .ok s :=
    ⟨_,new_eq_ok.mpr ⟨(npcsOf_pos hfsz hpcsz).ne',rfl⟩⟩
  refine ⟨s,hnew,fun hist t run hadds => ?_⟩
  suffices hall : t.Filled hist ∧ t.npcs = npcsOf fsz pcsz ∧ t.pcsz = pcsz by
    obtain ⟨hfill,hnp,hpc⟩ := hall
    rw [← hnp,← hpc] at hadds ⊢
    refine ⟨hfill.keeps,fun p piece ⟨hp,hlen⟩ => ?_⟩
    obtain ⟨t',hcall,hsame,_⟩ := hfill.next hadds hp hlen
    exact ⟨t',hcall,hsame⟩
  induction run with
  | refl => exact filled_init hpcsz hint hcap hnew disk
  | @tail hist u t l run last ih =>
    rw [List.forall_mem_cons] at hadds
    obtain ⟨hfill,hnp,hpc⟩ := ih hadds.2
    obtain ⟨x,r⟩ := l
    cases x with
    | get p => exact hadds.1.elim
    | add p piece =>
      rw [← hnp,← hpc] at hadds
      obtain ⟨t',hcall,_,hnext,hnp',hpc'⟩ := hfill.next hadds.2 hadds.1.1 hadds.1.2
      cases hcall.symm.trans last
      exact ⟨hnext,hnp'.trans hnp,hpc'.trans hpc⟩

/-- A file of three bytes in pieces of two. -/
theorem first_write_wins_three : ∃ s, ObjStore.new 3 2 (npcsOf 3 2) = .ok s ∧
    ∀ hist t, Run (ExecStep call) (s.bfieldInit false []) hist t →
      (∀ e ∈ hist, e.2.1.AddsWhole (npcsOf 3 2) 2) → t.Keeps hist ∧
      ∀ p piece, StoreCall.AddsWhole (npcsOf 3 2) 2 (.add p piece) →
        ∃ t', t.call (.add p piece) = .ok ((if p ∈ added hist then 0 else 1,[]),t') ∧
          (p ∈ added hist → t' = t) :=
  first_write_wins (by decide) (by decide) (by decide) (by decide) []

end ObjStore

end BTRx
