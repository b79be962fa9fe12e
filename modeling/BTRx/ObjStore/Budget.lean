import BTRx.Base.Transition
import BTRx.ObjStore.Access
import BTRx.ObjStore.Geometry

/-! # The budget of the cache

`maxsz` is `CACHESZ / npcs`, a number of entries that has nothing to do with the size of
one: with few large pieces the cache may hold more than `CACHESZ` bytes, and with more
pieces than bytes it has no room for a single entry. An access never makes the deque
longer than `maxsz` or than the number of mapped positions.
-/
namespace BTRx
open Memory Transition

/-- A call of one of the two public operations of the cache. -/
inductive CacheCall
  | put (p : ℕ) (piece : List Cell)
  | get (p : ℕ)

def CacheCall.pcno : CacheCall → ℕ
  | put p _ => p
  | get p => p

namespace Cache
variable {c c' t : Cache} {pos : ℤ} {buf : List Cell} {fsz pcsz : ℕ}

/-- A call, with the buffer that `get` fills. -/
def call (c : Cache) : CacheCall → Except Fault (List Cell × Cache)
  | .put p piece => do
    let c ← c.put p piece
    return ([],c)
  | .get p => c.get p

/-- The size of the buffer of an object. -/
def bufferSize (c : Cache) (a : ℕ) : ℕ :=
  match c.heap[a]? with
  | some (some acc) => acc.buf.length
  | _ => 0

/-- The bytes in the buffers of the deque. -/
def bufferBytes (c : Cache) : ℕ := (c.cvec.dedup.map c.bufferSize).sum

/-- What holds after every access. -/
structure Bounded (npcs pcsz : ℕ) (c : Cache) : Prop where
  unit : c.pcsz = pcsz
  cap : c.maxsz = cachesz / npcs
  room : c.cvec.length ≤ c.maxsz
  keys : ∀ q ∈ c.cmap, ∃ p < npcs, q = toInt (pcsz * p : ℕ)
  size : c.cvec.length ≤ c.cmap.keys.length
  front : c.cvec = [] → c.cmap = ∅
  bufs : ∀ (a : ℕ) (acc : Access), c.heap[a]? = some (some acc) → acc.buf.length = pcsz

variable {npcs : ℕ}

/-! ## Steps -/

theorem keys_insertNew {m : PosMap} {k : ℤ} {v : ℕ} (h : m.lookup k = none) :
    (m.insertNew k v).keys.length = m.keys.length + 1 := by
  have hk : k ∉ m := AList.lookup_eq_none.mp h
  rw [PosMap.insertNew,if_neg hk,AList.keys_insert,List.length_cons,List.erase_of_not_mem hk]

theorem keys_erase_le (m : PosMap) (k : ℤ) : m.keys.length ≤ (m.erase k).keys.length + 1 := by
  rw [AList.keys_erase,List.length_erase]
  split <;> omega

theorem Bounded.allocate (h : c.Bounded npcs pcsz) (hbuf : buf.length = pcsz) {a : ℕ} {acc : Access}
    (ha : (c.allocate pos buf)[a]? = some (some acc)) : acc.buf.length = pcsz := by
  rw [Cache.allocate,List.getElem?_append] at ha
  split at ha
  · exact h.bufs a acc ha
  · rw [List.getElem?_singleton] at ha
    split at ha
    · cases ha
      exact hbuf
    · cases ha

/-- The step lemma of `update_cache`. -/
theorem Bounded.accessed (h : c.Bounded npcs pcsz) (hmax : 1 ≤ c.maxsz) {p : ℕ} (hp : p < npcs)
    (hpos : pos = toInt (pcsz * p : ℕ)) (hbuf : c.cmap.lookup pos = none → buf.length = pcsz)
    (hx : c.Accessed pos buf c') : c'.Bounded npcs pcsz := by
  have hkeys : ∀ q ∈ c'.cmap, ∃ p < npcs, q = toInt (pcsz * p : ℕ) := by
    intro q hq
    rcases hx.mem_or hq with heq | hq
    · exact ⟨p,hp,heq.trans hpos⟩
    · exact h.keys q hq
  have hroom := h.room
  have hsize := h.size
  cases hx with
  | @hit idx front rest hl hv hidx =>
    have hlen : (c.onHit pos idx front).cvec.length = c.cvec.length := by
      simp only [onHit,List.length_append,List.length_singleton,List.length_eraseIdx,if_pos hidx]
      omega
    refine ⟨h.unit,h.cap,hlen.trans_le hroom,hkeys,?_,fun hnil => ?_,h.bufs⟩
    · have hle := keys_erase_le c.cmap pos
      rw [hlen,onHit,keys_insertNew (AList.lookup_erase _ _)]
      omega
    · simp [onHit] at hnil
  | room hl hne =>
    have hlen : (c.onRoom pos buf).cvec.length = c.cvec.length + 1 := by simp [onRoom]
    refine ⟨h.unit,h.cap,?_,hkeys,?_,fun hnil => ?_,fun a acc => h.allocate (hbuf hl)⟩
    · rw [hlen]
      exact Nat.lt_of_le_of_ne hroom hne
    · rw [hlen,onRoom,keys_insertNew hl]
      omega
    · simp [onRoom] at hnil
  | @full front rest old hl hfull hv hold =>
    have hlen : (c.onFull pos buf front old.pos).cvec.length = c.cvec.length := by
      simp only [onFull,List.length_append,List.length_singleton,List.length_tail]
      omega
    refine ⟨h.unit,h.cap,hlen.trans_le hroom,hkeys,?_,fun hnil => ?_,fun a acc ha => ?_⟩
    · have hle := keys_erase_le c.cmap old.pos
      rw [hlen,onFull,keys_insertNew (lookup_erase_of_none hl _)]
      omega
    · simp [onFull] at hnil
    · rw [onFull,List.getElem?_set] at ha
      split at ha
      · split at ha <;> cases ha
      · exact h.allocate (hbuf hl) ha

theorem Bounded.getPos (h : c.Bounded npcs pcsz) (p : ℕ) : c.getPos p = toInt (pcsz * p : ℕ) := by
  rw [Cache.getPos,h.unit,Nat.cast_mul]

/-- The step lemma of both calls. -/
theorem Bounded.call (h : c.Bounded npcs pcsz) (hmax : 1 ≤ c.maxsz) {x : CacheCall} (hp : x.pcno < npcs)
    {out : List Cell} (hx : c.call x = .ok (out,c')) : c'.Bounded npcs pcsz := by
  cases x with
  | put p piece =>
    replace hp : p < npcs := hp
    obtain ⟨d,hput,hx⟩ := Outcome.bind_eq_ok.mp hx
    cases hx
    obtain ⟨file,_,hacc⟩ := put_eq_ok hput
    have hfile : Bounded npcs pcsz { c with file := file.write (window c.pcsz piece) } :=
      ⟨h.unit,h.cap,h.room,h.keys,h.size,h.front,h.bufs⟩
    refine hfile.accessed hmax hp (h.getPos p) (fun _ => ?_) hacc
    rw [snprintf_length,h.unit]
  | get p =>
    replace hp : p < npcs := hp
    obtain ⟨file,buf,_,hlen,hacc⟩ := get_eq_ok hx
    have hfile : Bounded npcs pcsz { c with file } := ⟨h.unit,h.cap,h.room,h.keys,h.size,h.front,h.bufs⟩
    exact hfile.accessed hmax hp (h.getPos p) (fun hl => (hlen hl).trans h.unit) hacc

/-! ## The budget -/

theorem Bounded.cvec_le (h : c.Bounded npcs pcsz) : c.cvec.length ≤ min npcs (cachesz / npcs) := by
  have hsub : c.cmap.keys ⊆ (List.range npcs).map fun p : ℕ => toInt (pcsz * p : ℕ) := by
    intro q hq
    obtain ⟨p,hp,heq⟩ := h.keys q (AList.mem_keys.mpr hq)
    exact List.mem_map.mpr ⟨p,List.mem_range.mpr hp,heq.symm⟩
  have hle := (List.subperm_of_subset (AList.keys_nodup _) hsub).length_le
  rw [List.length_map,List.length_range] at hle
  have hroom := h.room
  rw [h.cap] at hroom
  exact le_min (h.size.trans hle) hroom

theorem Bounded.bufferBytes_le (h : c.Bounded npcs pcsz) :
    c.bufferBytes ≤ min npcs (cachesz / npcs) * pcsz := by
  have hbuf : ∀ x ∈ c.cvec.dedup.map c.bufferSize, x ≤ pcsz := by
    intro x hx
    obtain ⟨a,_,rfl⟩ := List.mem_map.mp hx
    unfold bufferSize
    split
    · rename_i acc hacc
      exact (h.bufs a acc hacc).le
    · exact Nat.zero_le _
  have hsum := List.sum_le_card_nsmul _ pcsz hbuf
  rw [List.length_map,smul_eq_mul] at hsum
  refine hsum.trans (Nat.mul_le_mul_right _ ?_)
  exact (List.dedup_sublist _).length_le.trans h.cvec_le

/-- The front is only taken from a deque that has one. -/
theorem updateCache_ne_emptyFront (hfront : c.cvec = [] → c.cmap = ∅) (hmax : 1 ≤ c.maxsz) :
    c.updateCache pos buf ≠ .error .emptyFront := by
  intro h
  unfold Cache.updateCache at h
  cases hl : c.cmap.lookup pos with
  | some idx =>
    simp only [hl] at h
    rcases Outcome.bind_eq_error.mp h with h | ⟨a,_,h⟩
    · unfold Cache.front at h
      split at h
      · rename_i hnil
        rw [hfront hnil,AList.lookup_empty] at hl
        cases hl
      · cases h
    · rcases Outcome.bind_eq_error.mp h with h | ⟨b,_,h⟩
      · unfold Cache.at at h
        split at h <;> cases h
      · cases h
  | none =>
    simp only [hl] at h
    rcases Outcome.bind_eq_error.mp h with h | ⟨d,_,h⟩
    · unfold Cache.makeRoom at h
      split at h
      · rename_i hfull
        rcases Outcome.bind_eq_error.mp h with h | ⟨a,_,h⟩
        · unfold Cache.front at h
          split at h
          · rename_i hnil
            simp only at hnil hfull
            rw [hnil,List.length_nil] at hfull
            omega
          · cases h
        · rcases Outcome.bind_eq_error.mp h with h | ⟨acc,_,h⟩
          · unfold Cache.deref at h
            split at h <;> cases h
          · cases h
      · cases h
    · cases h

theorem put_ne_emptyFront (hfront : c.cvec = [] → c.cmap = ∅) (hmax : 1 ≤ c.maxsz) {pcno : ℤ}
    {piece : List Cell} : c.put pcno piece ≠ .error .emptyFront := by
  intro h
  unfold Cache.put at h
  cases hl : c.file.lseek (c.getPos pcno) with
  | none =>
    simp only [hl] at h
    cases h
  | some file =>
    simp only [hl] at h
    refine updateCache_ne_emptyFront ?_ ?_ h
    · exact hfront
    · exact hmax

theorem get_ne_emptyFront (hfront : c.cvec = [] → c.cmap = ∅) (hmax : 1 ≤ c.maxsz) {pcno : ℤ} :
    c.get pcno ≠ .error .emptyFront := by
  intro h
  unfold Cache.get at h
  cases hl : c.cmap.lookup (c.getPos pcno) with
  | some idx =>
    simp only [hl] at h
    rcases Outcome.bind_eq_error.mp h with h | ⟨a,_,h⟩
    · unfold Cache.at at h
      split at h <;> cases h
    · rcases Outcome.bind_eq_error.mp h with h | ⟨acc,_,h⟩
      · unfold Cache.deref at h
        split at h <;> cases h
      · rcases Outcome.bind_eq_error.mp h with h | ⟨d,_,h⟩
        · exact updateCache_ne_emptyFront hfront hmax h
        · cases h
  | none =>
    simp only [hl] at h
    rcases Outcome.bind_eq_error.mp h with h | ⟨d,_,h⟩
    · refine updateCache_ne_emptyFront ?_ ?_ h
      · exact hfront
      · exact hmax
    · cases h

/-- The front is never taken from an empty deque. -/
theorem call_ne_emptyFront (hfront : c.cvec = [] → c.cmap = ∅) (hmax : 1 ≤ c.maxsz) (x : CacheCall) :
    c.call x ≠ .error .emptyFront := by
  intro h
  cases x with
  | put p piece =>
    rcases Outcome.bind_eq_error.mp h with h | ⟨d,_,h⟩
    · exact put_ne_emptyFront hfront hmax h
    · cases h
  | get p => exact get_ne_emptyFront hfront hmax h

/-! ## The runs of a configuration -/

/-- Constructed for this configuration and opened on any file, the cache stays inside its
budget and always finds a front to evict. -/
def WithinBudget (fsz pcsz : ℕ) (file : File) : Prop :=
  ∃ c, Cache.new pcsz (npcsOf fsz pcsz) = .ok c ∧ ∀ hist t, Run (ExecStep call) { c with file } hist t →
    (∀ e ∈ hist, e.2.1.pcno < npcsOf fsz pcsz) →
      t.bufferBytes ≤ cachesz ∧ ∀ x, x.pcno < npcsOf fsz pcsz → t.call x ≠ .error .emptyFront

theorem new_eq_ok {n : ℕ} : Cache.new pcsz n = .ok c ↔
    n ≠ 0 ∧ c = ⟨∅,[],[],⟨[],0⟩,pcsz,n,cachesz / n⟩ := by
  by_cases hn : n = 0
  · simp [Cache.new,hn]
  · simp [Cache.new,hn,eq_comm]

theorem bounded_run {c₀ : Cache} (h₀ : c₀.Bounded npcs pcsz) (hmax : 1 ≤ cachesz / npcs)
    {hist : List (Cache × CacheCall × List Cell)} (run : Run (ExecStep call) c₀ hist t)
    (hp : ∀ e ∈ hist, e.2.1.pcno < npcs) : t.Bounded npcs pcsz := by
  induction run with
  | refl => exact h₀
  | tail run last ih =>
    rw [List.forall_mem_cons] at hp
    have h := ih hp.2
    exact h.call (hmax.trans_eq h.cap.symm) hp.1 last

/-- The cache after the first reads of the pieces before `k`. -/
structure Loaded (pcsz k : ℕ) (c : Cache) : Prop where
  unit : c.pcsz = pcsz
  vec : c.cvec = List.range k
  heap : c.heap.length = k
  sizes : ∀ a < k, c.bufferSize a = pcsz
  keys : ∀ q ∈ c.cmap, ∃ p < k, q = (p * pcsz : ℕ)

/-- The next first read finds room. -/
theorem Loaded.next {k : ℕ} (h : c.Loaded pcsz k) (hfsz : fsz < 2 ^ 31) (hpcsz : 1 ≤ pcsz)
    (hk : k < npcsOf fsz pcsz) (hroom : k ≠ c.maxsz) :
    ∃ out c', c.call (.get k) = .ok (out,c') ∧ c'.Loaded pcsz (k + 1) ∧ c'.maxsz = c.maxsz := by
  have hstart := (lt_npcsOf_iff hpcsz).mp hk
  have hpos : c.getPos k = (k * pcsz : ℕ) := by
    rw [← h.unit] at hstart ⊢
    exact getPos_of_lt hfsz hstart
  have hmiss : c.cmap.lookup (c.getPos k) = none := by
    rw [hpos]
    refine AList.lookup_eq_none.mpr fun hmem => ?_
    obtain ⟨p,hp,heq⟩ := h.keys _ hmem
    have hkp : k = p := Nat.eq_of_mul_eq_mul_right hpcsz (by exact_mod_cast heq)
    omega
  have hlen : c.cvec.length = k := by rw [h.vec,List.length_range]
  have haddr : c.Addressed := by
    intro a ha
    rw [h.vec,List.mem_range] at ha
    rwa [h.heap]
  have hcan : c.CanGet (c.getPos k) := by
    rw [CanGet,hmiss]
    intro hfull
    exact absurd (hlen.symm.trans hfull) hroom
  obtain ⟨out,c',hget⟩ := (get_returns_iff haddr).mpr hcan
  obtain ⟨file,buf,_,hbuf,hx⟩ := get_eq_ok hget
  refine ⟨out,c',hget,?_,hx.frame.1.2.2⟩
  cases hx with
  | hit hl _ _ => exact nomatch hmiss.symm.trans hl
  | full _ hfull _ _ => exact absurd (hlen.symm.trans hfull) hroom
  | room hl _ =>
    refine ⟨h.unit,?_,?_,fun a ha => ?_,fun q hq => ?_⟩
    · simp only [onRoom,h.vec,h.heap,List.range_succ]
    · simp only [onRoom,allocate,List.length_append,List.length_singleton,h.heap]
    · by_cases hak : a = k
      · subst hak
        simp only [bufferSize,onRoom,allocate]
        rw [← h.heap,List.getElem?_concat_length]
        exact (hbuf hmiss).trans h.unit
      · have hsize := h.sizes a (by omega)
        simp only [bufferSize,onRoom,allocate] at hsize ⊢
        rwa [List.getElem?_append_left (by rw [h.heap]; omega)]
    · rcases (Accessed.room hl (by rwa [hlen])).mem_or hq with hq | hq
      · exact ⟨k,by omega,hq.trans hpos⟩
      · obtain ⟨p,hp,heq⟩ := h.keys q hq
        exact ⟨p,by omega,heq⟩

theorem Loaded.bufferBytes {k : ℕ} (h : c.Loaded pcsz k) : c.bufferBytes = k * pcsz := by
  have hmap : (List.range k).map c.bufferSize = List.replicate k pcsz := by
    rw [List.eq_replicate_iff,List.length_map,List.length_range]
    refine ⟨rfl,fun x hx => ?_⟩
    obtain ⟨a,ha,rfl⟩ := List.mem_map.mp hx
    exact h.sizes a (List.mem_range.mp ha)
  rw [Cache.bufferBytes,h.vec,List.nodup_range.dedup,hmap,List.sum_replicate,smul_eq_mul]

/-- The cache fills up with the first pieces. -/
theorem loaded_run {c₀ : Cache} (h₀ : c₀.Loaded pcsz 0) (hfsz : fsz < 2 ^ 31) (hpcsz : 1 ≤ pcsz) {k : ℕ}
    (hk : k ≤ min (npcsOf fsz pcsz) c₀.maxsz) : ∃ hist t, Run (ExecStep call) c₀ hist t ∧
      (∀ e ∈ hist, e.2.1.pcno < npcsOf fsz pcsz) ∧ t.Loaded pcsz k ∧ t.maxsz = c₀.maxsz := by
  induction k with
  | zero => exact ⟨[],c₀,.refl,fun e he => absurd he List.not_mem_nil,h₀,rfl⟩
  | succ k ih =>
    rw [le_min_iff] at hk
    obtain ⟨hist,t,run,hp,hload,hmax⟩ := ih (by omega)
    obtain ⟨out,t',hcall,hnext,hsame⟩ := hload.next hfsz hpcsz (by omega) (by omega)
    have hlast : ExecStep call t (.get k,out) t' := hcall
    refine ⟨_,t',run.tail hlast,?_,hnext,hsame.trans hmax⟩
    rw [List.forall_mem_cons]
    exact ⟨by simp only [CacheCall.pcno]; omega,hp⟩

/-- A cache without room for one entry. -/
theorem call_emptyFront (hvec : c.cvec = []) (hmap : c.cmap = ∅) (hmax : c.maxsz = 0) (p : ℕ) :
    c.call (.get p) = .error .emptyFront := by
  have hl : c.cmap.lookup (c.getPos p) = none := by rw [hmap,AList.lookup_empty]
  simp only [Cache.call,Cache.get,hl,Cache.updateCache,Cache.makeRoom,Cache.evict,Cache.front,hvec,hmax,
    List.length_nil,if_true,Outcome.error_bind]

/-- The budget is kept in all runs exactly when there is a piece, not more pieces than
bytes, and as many buffers as fit into the deque are not larger than the budget. -/
theorem withinBudget_iff (hfsz : fsz < 2 ^ 31) (hpcsz : 1 ≤ pcsz) (file : File) :
    WithinBudget fsz pcsz file ↔ 0 < fsz ∧ npcsOf fsz pcsz ≤ cachesz ∧
      min (npcsOf fsz pcsz) (cachesz / npcsOf fsz pcsz) * pcsz ≤ cachesz := by
  have hloaded : ∀ n, Loaded pcsz 0 ⟨∅,[],[],file,pcsz,n,cachesz / n⟩ := fun n =>
    ⟨rfl,rfl,rfl,fun a ha => absurd ha (Nat.not_lt_zero a),fun q hq => absurd hq (AList.notMem_empty q)⟩
  constructor
  · rintro ⟨c,hnew,hall⟩
    obtain ⟨hne,rfl⟩ := new_eq_ok.mp hnew
    have hpos : 0 < npcsOf fsz pcsz := Nat.pos_of_ne_zero hne
    have hstart := (lt_npcsOf_iff hpcsz).mp hpos
    refine ⟨by omega,?_,?_⟩
    · by_contra hmany
      have hzero : cachesz / npcsOf fsz pcsz = 0 := Nat.div_eq_of_lt (not_le.mp hmany)
      exact (hall [] _ .refl (fun e he => absurd he List.not_mem_nil)).2 (.get 0) hpos
        (call_emptyFront rfl rfl hzero 0)
    · obtain ⟨hist,t,run,hp,hload,_⟩ := loaded_run (hloaded (npcsOf fsz pcsz)) hfsz hpcsz le_rfl
      have hle := (hall hist t run hp).1
      rwa [hload.bufferBytes] at hle
  · rintro ⟨hpos,hcap,hfit⟩
    have hn : 0 < npcsOf fsz pcsz := npcsOf_pos hpos hpcsz
    have hmax : 1 ≤ cachesz / npcsOf fsz pcsz := Nat.div_pos hcap hn
    refine ⟨_,new_eq_ok.mpr ⟨hn.ne',rfl⟩,fun hist t run hp => ?_⟩
    have hinit : Bounded (npcsOf fsz pcsz) pcsz
        ⟨∅,[],[],file,pcsz,npcsOf fsz pcsz,cachesz / npcsOf fsz pcsz⟩ :=
      ⟨rfl,rfl,Nat.zero_le _,fun q hq => absurd hq (AList.notMem_empty q),Nat.zero_le _,fun _ => rfl,
        fun a acc ha => by simp at ha⟩
    have h := bounded_run hinit hmax run hp
    exact ⟨h.bufferBytes_le.trans hfit,fun x _ => call_ne_emptyFront h.front (hmax.trans_eq h.cap.symm) x⟩

/-- A file of three bytes in pieces of two. -/
theorem withinBudget_three : WithinBudget 3 2 ⟨[],0⟩ := by
  have hn : npcsOf 3 2 = 2 := rfl
  exact (withinBudget_iff (by decide) (by decide) _).mpr (by simp [hn,cachesz])

/-- Two pieces of six million bytes do not fit, but there is room for five million. -/
theorem not_withinBudget : ¬ WithinBudget 12000000 6000000 ⟨[],0⟩ := by
  rintro ⟨c,hnew,hall⟩
  obtain ⟨_,rfl⟩ := new_eq_ok.mp hnew
  have hn : npcsOf 12000000 6000000 = 2 := rfl
  have h₀ : Loaded 6000000 0 ⟨∅,[],[],⟨[],0⟩,6000000,2,cachesz / 2⟩ :=
    ⟨rfl,rfl,rfl,fun a ha => absurd ha (Nat.not_lt_zero a),fun q hq => absurd hq (AList.notMem_empty q)⟩
  obtain ⟨hist,t,run,hp,hload,_⟩ := @loaded_run 12000000 _ _ h₀ (by decide) (by decide) 2 (by simp [hn,cachesz])
  rw [hn] at hall
  have hle := (hall hist t run hp).1
  rw [hload.bufferBytes] at hle
  simp [cachesz] at hle

end Cache

end BTRx
