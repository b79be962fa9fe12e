import BTRx.Base.Memory
import BTRx.ObjStore.Bfield

/-! # The piece cache and the store

`Cache` keeps the buffers of recently used pieces in a deque of pointers and, for each
file position, the index its pointer had when it was pushed. `Access` objects live on a
heap so that a deleted one can be told from a live one. `ObjStore` puts the node's own
bitfield in front of the cache. Reads and writes are complete; the file is a parameter
of the state.
-/
namespace BTRx
open Memory ByteSet

/-- `CACHESZ`, in bytes. -/
def cachesz : ℕ := 10027008

/-- The conversion of a 32-bit unsigned value, or of a product of ints, to `int`. -/
def toInt (x : ℤ) : ℤ := Int.bmod x (2 ^ 32)

/-- `unordered_map<int, int>`. -/
abbrev PosMap := AList (fun _ : ℤ => ℕ)

/-- `unordered_map::insert`, which leaves an existing key alone. -/
def PosMap.insertNew (m : PosMap) (k : ℤ) (v : ℕ) : PosMap := if k ∈ m then m else AList.insert k v m

structure Access where
  pos : ℤ
  buf : List Cell
  deriving DecidableEq, Repr

/-- `cvec` holds heap addresses; a deleted object leaves `none` at its address. -/
structure Cache where
  cmap : PosMap
  cvec : List ℕ
  heap : List (Option Access)
  file : File
  pcsz : ℕ
  npcs : ℕ
  maxsz : ℕ

/-- `Cache(int pcsz, int npcs)`; the file is opened later. -/
def Cache.new (pcsz npcs : ℕ) : Except Fault Cache :=
  if npcs = 0 then .error .divByZero
  else .ok { cmap := ∅, cvec := [], heap := [], file := ⟨[],0⟩, pcsz, npcs, maxsz := cachesz / npcs }

/-- `Cache::get_pos(int pcno)`. -/
def Cache.getPos (c : Cache) (pcno : ℤ) : ℤ := toInt (c.pcsz * pcno)

def Cache.front (c : Cache) : Except Fault ℕ :=
  match c.cvec with
  | [] => .error .emptyFront
  | p :: _ => .ok p

def Cache.at (c : Cache) (idx : ℕ) : Except Fault ℕ :=
  match c.cvec[idx]? with
  | some p => .ok p
  | none => .error .badDequeIndex

/-- The object a pointer points to. -/
def Cache.deref (c : Cache) (p : ℕ) : Except Fault Access :=
  match c.heap[p]? with
  | some (some acc) => .ok acc
  | _ => .error .danglingPointer

/-- The eviction in `update_cache`: the front is popped, unmapped and deleted. -/
def Cache.evict (c : Cache) : Except Fault Cache := do
  let oldAcc ← c.front
  let acc ← c.deref oldAcc
  return { c with
    cvec := c.cvec.tail
    cmap := c.cmap.erase acc.pos
    heap := c.heap.set oldAcc none }

/-- The test in front of the eviction. -/
def Cache.makeRoom (c : Cache) : Except Fault Cache :=
  if c.cvec.length = c.maxsz then c.evict else .ok c

/-- `Cache::update_cache(int pos, char *buf)`. On a hit the entry at the recorded index is
erased, but it is the front of the deque that is pushed to the back. -/
def Cache.updateCache (c : Cache) (pos : ℤ) (buf : List Cell) : Except Fault Cache := do
  match c.cmap.lookup pos with
  | some idx =>
    let oldAcc ← c.front
    let _ ← c.at idx
    let cvec := c.cvec.eraseIdx idx
    return { c with
      cmap := PosMap.insertNew (c.cmap.erase pos) pos cvec.length
      cvec := cvec ++ [oldAcc] }
  | none =>
    let newAcc := c.heap.length
    let c ← { c with heap := c.heap ++ [some (Access.mk pos buf)] }.makeRoom
    return { c with
      cmap := PosMap.insertNew c.cmap pos c.cvec.length
      cvec := c.cvec ++ [newAcc] }

/-- `Cache::get(int pcno, char *buf)`. A failed `lseek` is only logged. -/
def Cache.get (c : Cache) (pcno : ℤ) : Except Fault (List Cell × Cache) := do
  let pos := c.getPos pcno
  match c.cmap.lookup pos with
  | some idx =>
    let p ← c.at idx
    let acc ← c.deref p
    let c' ← c.updateCache pos acc.buf
    return (strncpy c.pcsz acc.buf,c')
  | none =>
    let file := (c.file.lseek pos).getD c.file
    let (got,file) := file.read c.pcsz
    let store := window c.pcsz got
    let c' ← { c with file }.updateCache pos store
    return (strncpy c.pcsz store,c')

/-- `Cache::put(int pcno, char *piece)`. -/
def Cache.put (c : Cache) (pcno : ℤ) (piece : List Cell) : Except Fault Cache := do
  let pos := c.getPos pcno
  match c.file.lseek pos with
  | none => throw .exit
  | some file =>
    let file := file.write (window c.pcsz piece)
    { c with file }.updateCache pos (snprintf c.pcsz piece)

/-- `Cache::exists(uint32_t pcno)`. -/
def Cache.exists (c : Cache) (pcno : UInt32) : Bool := (c.cmap.lookup (toInt pcno.toNat)).isSome

/-- The bitfield is allocated by `bfieldInit`. Until then the source has a null pointer, which
every access reads through, where an empty vector stands here. -/
structure ObjStore where
  fsz : ℕ
  pcsz : ℕ
  npcs : ℕ
  cache : Cache
  bfield : Bfield

/-- `npcs` as `Node::Node` computes it. -/
def npcsOf (fsz pcsz : ℕ) : ℕ := if fsz % pcsz ≠ 0 then fsz / pcsz + 1 else fsz / pcsz

/-- `ObjStore(int fsz, int pcsz, int npcs, string fname)`. A store is used after `bfieldInit` only:
what a handler meets that is quicker than that is left out. -/
def ObjStore.new (fsz pcsz npcs : ℕ) : Except Fault ObjStore := do
  let cache ← Cache.new pcsz npcs
  return { fsz, pcsz, npcs, cache, bfield := ⟨[]⟩ }

/-- The store that is built; without pieces there is none. -/
theorem ObjStore.new_eq_ok {fsz pcsz npcs : ℕ} {s : ObjStore} : ObjStore.new fsz pcsz npcs = .ok s ↔
    npcs ≠ 0 ∧ s = ⟨fsz,pcsz,npcs,⟨∅,[],[],⟨[],0⟩,pcsz,npcs,cachesz / npcs⟩,⟨[]⟩⟩ := by
  by_cases hn : npcs = 0
  · simp [ObjStore.new,Cache.new,hn]
  · simp [ObjStore.new,Cache.new,hn,eq_comm]

/-- `ObjStore::bfield_init(bool hasfile)`. Without the file, `head -c fsz /dev/zero`
creates it; with it, `disk` is what the file holds. -/
def ObjStore.bfieldInit (s : ObjStore) (hasfile : Bool) (disk : List Cell) : ObjStore :=
  let data := if hasfile then disk else List.replicate s.fsz (some 0)
  { s with bfield := Bfield.ofFile hasfile s.npcs, cache := { s.cache with file := ⟨data,0⟩ } }

/-- `ObjStore::add_piece(int pcno, char *piece)`. -/
def ObjStore.addPiece (s : ObjStore) (pcno : ℤ) (piece : List Cell) :
    Except Fault (ℕ × ObjStore) := do
  if ← s.bfield.exists pcno then
    return (0,s)
  else
    let cache ← s.cache.put pcno piece
    let bfield ← s.bfield.flip pcno
    return (1,{ s with cache, bfield })

/-- `ObjStore::get_piece(int pcno, char *buf)`, with what `buf` holds afterwards. -/
def ObjStore.getPiece (s : ObjStore) (pcno : ℤ) : Except Fault (ℕ × List Cell × ObjStore) := do
  if !(← s.bfield.exists pcno) then
    return (0,uninit s.pcsz,s)
  else
    let (buf,cache) ← s.cache.get pcno
    return (1,buf,{ s with cache })

/-- `ObjStore::exists(uint32_t pcno)`. -/
def ObjStore.exists (s : ObjStore) (pcno : UInt32) : Bool := s.cache.exists pcno

theorem toInt_eq_ite {x : ℤ} (h0 : 0 ≤ x) (h : x < 2 ^ 32) :
    toInt x = if x < 2 ^ 31 then x else x - 2 ^ 32 := by
  have hm : x % ((2 ^ 32 : ℕ) : ℤ) = x := Int.emod_eq_of_lt h0 (by norm_num; omega)
  unfold toInt Int.bmod
  simp only [hm]
  norm_num

theorem toInt_of_lt {x : ℤ} (h0 : 0 ≤ x) (h : x < 2 ^ 31) : toInt x = x := by
  rw [toInt_eq_ite h0 (by omega),if_pos h]

/-- A 32-bit number whose `int` value is not negative keeps its value. -/
theorem toInt_of_nonneg {x : ℤ} (h0 : 0 ≤ x) (h : x < 2 ^ 32) (hpos : 0 ≤ toInt x) : toInt x = x := by
  rw [toInt_eq_ite h0 h] at hpos ⊢
  split at hpos
  · rename_i hlt
    rw [if_pos hlt]
  · omega

theorem npcsOf_pos {fsz pcsz : ℕ} (hfsz : 0 < fsz) (hpcsz : 0 < pcsz) : 0 < npcsOf fsz pcsz := by
  unfold npcsOf
  split
  · exact Nat.succ_pos _
  · rename_i hmod
    exact Nat.div_pos (Nat.le_of_dvd hfsz (Nat.dvd_of_mod_eq_zero (not_not.mp hmod))) hpcsz

theorem PosMap.lookup_insertNew {m : PosMap} {k q : ℤ} {v : ℕ} (hk : m.lookup k = none) :
    (m.insertNew k v).lookup q = if q = k then some v else m.lookup q := by
  rw [PosMap.insertNew,if_neg (AList.lookup_eq_none.mp hk)]
  by_cases h : q = k
  · subst h
    rw [if_pos rfl,AList.lookup_insert]
  · rw [if_neg h,AList.lookup_insert_ne h]

/-! ## Frame of the cache operations -/

/-- What no cache operation changes besides the file. -/
def Cache.SameShape (c c' : Cache) : Prop :=
  c'.pcsz = c.pcsz ∧ c'.npcs = c.npcs ∧ c'.maxsz = c.maxsz

/-! ## Faults of the cache operations -/

theorem Cache.front_error {c : Cache} {f : Fault} (h : c.front = .error f) : f.Stale := by
  unfold Cache.front at h
  split at h
  · cases h
    exact Or.inl rfl
  · cases h

theorem Cache.at_error {c : Cache} {idx : ℕ} {f : Fault} (h : c.at idx = .error f) : f.Stale := by
  unfold Cache.at at h
  split at h
  · cases h
  · cases h
    exact Or.inr (Or.inl rfl)

theorem Cache.deref_error {c : Cache} {a : ℕ} {f : Fault} (h : c.deref a = .error f) : f.Stale := by
  unfold Cache.deref at h
  split at h
  · cases h
  · cases h
    exact Or.inr (Or.inr rfl)

theorem Cache.updateCache_error {c : Cache} {pos : ℤ} {buf : List Cell} {f : Fault}
    (h : c.updateCache pos buf = .error f) : f.Stale := by
  unfold Cache.updateCache at h
  cases hl : c.cmap.lookup pos with
  | some idx =>
    simp only [hl] at h
    rcases Outcome.bind_eq_error.mp h with h | ⟨a,_,h⟩
    · exact Cache.front_error h
    · rcases Outcome.bind_eq_error.mp h with h | ⟨b,_,h⟩
      · exact Cache.at_error h
      · cases h
  | none =>
    simp only [hl] at h
    rcases Outcome.bind_eq_error.mp h with h | ⟨d,_,h⟩
    · unfold Cache.makeRoom at h
      split at h
      · rcases Outcome.bind_eq_error.mp h with h | ⟨a,_,h⟩
        · exact Cache.front_error h
        · rcases Outcome.bind_eq_error.mp h with h | ⟨acc,_,h⟩
          · exact Cache.deref_error h
          · cases h
      · cases h
    · cases h

theorem Cache.get_error {c : Cache} {pcno : ℤ} {f : Fault} (h : c.get pcno = .error f) :
    f.Stale := by
  unfold Cache.get at h
  cases hl : c.cmap.lookup (c.getPos pcno) with
  | some idx =>
    simp only [hl] at h
    rcases Outcome.bind_eq_error.mp h with h | ⟨a,_,h⟩
    · exact Cache.at_error h
    · rcases Outcome.bind_eq_error.mp h with h | ⟨acc,_,h⟩
      · exact Cache.deref_error h
      · rcases Outcome.bind_eq_error.mp h with h | ⟨d,_,h⟩
        · exact Cache.updateCache_error h
        · cases h
  | none =>
    simp only [hl] at h
    rcases Outcome.bind_eq_error.mp h with h | ⟨d,_,h⟩
    · exact Cache.updateCache_error h
    · cases h

theorem Cache.put_error {c : Cache} {pcno : ℤ} {piece : List Cell} {f : Fault}
    (h : c.put pcno piece = .error f) : f = .exit ∨ f.Stale := by
  unfold Cache.put at h
  cases hl : c.file.lseek (c.getPos pcno) with
  | none =>
    simp only [hl] at h
    cases h
    exact Or.inl rfl
  | some file =>
    simp only [hl] at h
    exact Or.inr (Cache.updateCache_error h)

/-! ## The store -/

theorem shiftOne_error {k : ℤ} {f : Fault} (h : shiftOne k = .error f) : f.Bounds := by
  unfold shiftOne at h
  split at h
  · cases h
  · cases h
    exact Or.inr rfl

theorem index_error {v : List UInt8} {i : ℤ} {f : Fault} (h : index v i = .error f) : f.Bounds := by
  unfold index at h
  split at h
  · cases h
  · cases h
    exact Or.inl rfl

theorem Bfield.exists_error {b : Bfield} {pos : ℤ} {f : Fault} (h : b.exists pos = .error f) :
    f.Bounds := by
  unfold Bfield.exists at h
  rcases Outcome.bind_eq_error.mp h with h | ⟨m,_,h⟩
  · exact shiftOne_error h
  · rcases Outcome.bind_eq_error.mp h with h | ⟨byte,_,h⟩
    · exact index_error h
    · cases h

theorem Bfield.flip_error {b : Bfield} {pos : ℤ} {f : Fault} (h : b.flip pos = .error f) :
    f.Bounds := by
  unfold Bfield.flip at h
  rcases Outcome.bind_eq_error.mp h with h | ⟨m,_,h⟩
  · exact shiftOne_error h
  · rcases Outcome.bind_eq_error.mp h with h | ⟨byte,_,h⟩
    · exact index_error h
    · split at h <;> cases h

theorem ObjStore.getPiece_error {s : ObjStore} {pcno : ℤ} {f : Fault}
    (h : s.getPiece pcno = .error f) : f.Bounds ∨ f.Stale := by
  unfold ObjStore.getPiece at h
  rcases Outcome.bind_eq_error.mp h with h | ⟨b,_,h⟩
  · exact Or.inl (Bfield.exists_error h)
  · split at h
    · cases h
    · rcases Outcome.bind_eq_error.mp h with h | ⟨_,_,h⟩
      · exact Or.inr (Cache.get_error h)
      · cases h

theorem ObjStore.addPiece_error {s : ObjStore} {pcno : ℤ} {piece : List Cell} {f : Fault}
    (h : s.addPiece pcno piece = .error f) : f = .exit ∨ f.Bounds ∨ f.Stale := by
  unfold ObjStore.addPiece at h
  rcases Outcome.bind_eq_error.mp h with h | ⟨b,_,h⟩
  · exact Or.inr (Or.inl (Bfield.exists_error h))
  · split at h
    · cases h
    · rcases Outcome.bind_eq_error.mp h with h | ⟨_,_,h⟩
      · rcases Cache.put_error h with h | h
        · exact Or.inl h
        · exact Or.inr (Or.inr h)
      · rcases Outcome.bind_eq_error.mp h with h | ⟨_,_,h⟩
        · exact Or.inr (Or.inl (Bfield.flip_error h))
        · cases h

theorem ObjStore.addPiece_of_held {s : ObjStore} {p : ℕ} (hp : p < 8 * s.bfield.bfield.length)
    (h : bitAt s.bfield.bfield p = true) (piece : List Cell) : s.addPiece p piece = .ok (0,s) := by
  simp [ObjStore.addPiece,Bfield.exists_of_lt hp,h]

/-- A piece that is not held goes to `Cache::put`, and its bit is set afterwards. -/
theorem ObjStore.addPiece_of_missing {s : ObjStore} {p : ℕ} (hp : p < 8 * s.bfield.bfield.length)
    (h : bitAt s.bfield.bfield p = false) (piece : List Cell) :
    s.addPiece p piece = (do
      let cache ← s.cache.put p piece
      return (1,{ s with cache, bfield := ⟨setAt s.bfield.bfield p⟩ })) := by
  simp only [ObjStore.addPiece,Bfield.exists_of_lt hp,Bfield.flip_of_lt hp,h,Outcome.ok_bind,
    Bool.false_eq_true,if_false]

theorem ObjStore.getPiece_of_missing {s : ObjStore} {p : ℕ} (hp : p < 8 * s.bfield.bfield.length)
    (h : bitAt s.bfield.bfield p = false) : s.getPiece p = .ok (0,uninit s.pcsz,s) := by
  simp [ObjStore.getPiece,Bfield.exists_of_lt hp,h]

/-- A piece that is held goes to `Cache::get`, and `get_piece` returns 1. -/
theorem ObjStore.getPiece_of_held {s : ObjStore} {p : ℕ} (hp : p < 8 * s.bfield.bfield.length)
    (h : bitAt s.bfield.bfield p = true) :
    s.getPiece p = (do
      let (buf,cache) ← s.cache.get p
      return (1,buf,{ s with cache })) := by
  simp [ObjStore.getPiece,Bfield.exists_of_lt hp,h]

/-- Everything a returning `add_piece` can have done. -/
theorem ObjStore.addPiece_eq_ok {s s' : ObjStore} {pcno : ℤ} {piece : List Cell} {r : ℕ}
    (h : s.addPiece pcno piece = .ok (r,s')) :
    ∃ p : ℕ, pcno = p ∧ p < 8 * s.bfield.bfield.length ∧
      (bitAt s.bfield.bfield p = true ∧ r = 0 ∧ s' = s ∨
        bitAt s.bfield.bfield p = false ∧ r = 1 ∧ ∃ cache, s.cache.put p piece = .ok cache ∧
          s' = { s with cache, bfield := ⟨setAt s.bfield.bfield p⟩ }) := by
  obtain ⟨b,hb,_⟩ := Outcome.bind_eq_ok.mp h
  obtain ⟨p,rfl,hp,rfl⟩ := Bfield.exists_eq_ok.mp hb
  refine ⟨p,rfl,hp,?_⟩
  cases hbit : bitAt s.bfield.bfield p with
  | true =>
    rw [ObjStore.addPiece_of_held hp hbit] at h
    cases h
    exact Or.inl ⟨rfl,rfl,rfl⟩
  | false =>
    rw [ObjStore.addPiece_of_missing hp hbit] at h
    obtain ⟨cache,hc,h⟩ := Outcome.bind_eq_ok.mp h
    cases h
    exact Or.inr ⟨rfl,rfl,cache,hc,rfl⟩

/-- Everything a returning `get_piece` can have done. -/
theorem ObjStore.getPiece_eq_ok {s s' : ObjStore} {pcno : ℤ} {buf : List Cell} {r : ℕ}
    (h : s.getPiece pcno = .ok (r,buf,s')) :
    ∃ p : ℕ, pcno = p ∧ p < 8 * s.bfield.bfield.length ∧
      (bitAt s.bfield.bfield p = false ∧ r = 0 ∧ buf = uninit s.pcsz ∧ s' = s ∨
        bitAt s.bfield.bfield p = true ∧ r = 1 ∧ ∃ cache, s.cache.get p = .ok (buf,cache) ∧
          s' = { s with cache }) := by
  obtain ⟨b,hb,_⟩ := Outcome.bind_eq_ok.mp h
  obtain ⟨p,rfl,hp,rfl⟩ := Bfield.exists_eq_ok.mp hb
  refine ⟨p,rfl,hp,?_⟩
  cases hbit : bitAt s.bfield.bfield p with
  | false =>
    rw [ObjStore.getPiece_of_missing hp hbit] at h
    cases h
    exact Or.inl ⟨rfl,rfl,rfl,rfl⟩
  | true =>
    rw [ObjStore.getPiece_of_held hp hbit] at h
    obtain ⟨⟨buf',cache⟩,hc,h⟩ := Outcome.bind_eq_ok.mp h
    cases h
    exact Or.inr ⟨rfl,rfl,cache,hc,rfl⟩

end BTRx
