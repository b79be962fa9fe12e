import BTRx.ObjStore.Cache

/-! # What update_cache can do

An access hits, finds room or evicts, and `Accessed` has one constructor for each. An
index is recorded when its pointer is pushed and is not corrected when other pointers
move.
-/
namespace BTRx
open Memory ByteSet

theorem File.lseek_natCast (f : File) (n : ℕ) : f.lseek n = some { f with off := n } := by
  simp [File.lseek]

namespace Cache
variable {c c' : Cache} {pos : ℤ} {buf : List Cell}

theorem deref_eq_ok {p : ℕ} {acc : Access} : c.deref p = .ok acc ↔ c.heap[p]? = some (some acc) := by
  unfold Cache.deref
  split
  · rename_i acc' h
    simp [h]
  · rename_i h
    constructor
    · intro h'
      cases h'
    · intro h'
      exact absurd h' (h acc)

theorem at_eq_ok {idx p : ℕ} : c.at idx = .ok p ↔ c.cvec[idx]? = some p := by
  unfold Cache.at
  cases c.cvec[idx]? <;> simp

theorem front_eq_ok {p : ℕ} : c.front = .ok p ↔ ∃ rest, c.cvec = p :: rest := by
  unfold Cache.front
  cases c.cvec <;> simp

/-- The heap with the object of a miss. -/
def allocate (c : Cache) (pos : ℤ) (buf : List Cell) : List (Option Access) := c.heap ++ [some ⟨pos,buf⟩]

/-- A hit: the entry found is erased and the front is pushed to the back. -/
def onHit (c : Cache) (pos : ℤ) (idx front : ℕ) : Cache :=
  { c with
    cmap := PosMap.insertNew (c.cmap.erase pos) pos (c.cvec.length - 1)
    cvec := c.cvec.eraseIdx idx ++ [front] }

/-- A miss with room left. -/
def onRoom (c : Cache) (pos : ℤ) (buf : List Cell) : Cache :=
  { c with
    cmap := PosMap.insertNew c.cmap pos c.cvec.length
    cvec := c.cvec ++ [c.heap.length]
    heap := c.allocate pos buf }

/-- A miss on a full cache, whose front has the position `old`. -/
def onFull (c : Cache) (pos : ℤ) (buf : List Cell) (front : ℕ) (old : ℤ) : Cache :=
  { c with
    cmap := PosMap.insertNew (c.cmap.erase old) pos c.cvec.tail.length
    cvec := c.cvec.tail ++ [c.heap.length]
    heap := (c.allocate pos buf).set front none }

inductive Accessed (c : Cache) (pos : ℤ) (buf : List Cell) : Cache → Prop
  | hit {idx front : ℕ} {rest : List ℕ} (recorded : c.cmap.lookup pos = some idx)
    (vec : c.cvec = front :: rest) (inside : idx < c.cvec.length) :
    Accessed c pos buf (c.onHit pos idx front)
  | room (missing : c.cmap.lookup pos = none) (room : c.cvec.length ≠ c.maxsz) :
    Accessed c pos buf (c.onRoom pos buf)
  | full {front : ℕ} {rest : List ℕ} {old : Access} (missing : c.cmap.lookup pos = none)
    (full : c.cvec.length = c.maxsz) (vec : c.cvec = front :: rest)
    (live : (c.allocate pos buf)[front]? = some (some old)) :
    Accessed c pos buf (c.onFull pos buf front old.pos)

theorem updateCache_of_hit {idx front : ℕ} {rest : List ℕ} (hl : c.cmap.lookup pos = some idx)
    (hv : c.cvec = front :: rest) (hidx : idx < c.cvec.length) :
    c.updateCache pos buf = .ok (c.onHit pos idx front) := by
  have hfront : c.front = .ok front := front_eq_ok.mpr ⟨rest,hv⟩
  have hat : c.at idx = .ok _ := at_eq_ok.mpr (List.getElem?_eq_getElem hidx)
  simp only [Cache.updateCache,hl,hfront,hat,Outcome.ok_bind,Outcome.pure_eq,List.length_eraseIdx,
    if_pos hidx,onHit]

theorem updateCache_of_room (hl : c.cmap.lookup pos = none) (hne : c.cvec.length ≠ c.maxsz) :
    c.updateCache pos buf = .ok (c.onRoom pos buf) := by
  simp only [Cache.updateCache,hl,Cache.makeRoom,if_neg hne,Outcome.ok_bind,Outcome.pure_eq,onRoom,
    allocate]

theorem updateCache_of_full {front : ℕ} {rest : List ℕ} {old : Access} (hl : c.cmap.lookup pos = none)
    (hfull : c.cvec.length = c.maxsz) (hv : c.cvec = front :: rest)
    (hold : (c.allocate pos buf)[front]? = some (some old)) :
    c.updateCache pos buf = .ok (c.onFull pos buf front old.pos) := by
  have hfront : Cache.front { c with heap := c.allocate pos buf } = .ok front := front_eq_ok.mpr ⟨rest,hv⟩
  have hderef : Cache.deref { c with heap := c.allocate pos buf } front = .ok old := deref_eq_ok.mpr hold
  rw [allocate] at hfront hderef
  simp only [Cache.updateCache,hl,Cache.makeRoom,if_pos hfull,Cache.evict,hfront,hderef,Outcome.ok_bind,
    Outcome.pure_eq,onFull,allocate]

/-- Everything a returning `update_cache` can have done. -/
theorem updateCache_eq_ok : c.updateCache pos buf = .ok c' ↔ c.Accessed pos buf c' := by
  constructor
  · intro h
    cases hl : c.cmap.lookup pos with
    | some idx =>
      have hup := h
      simp only [Cache.updateCache,hl] at hup
      obtain ⟨front,hfront,hup⟩ := Outcome.bind_eq_ok.mp hup
      obtain ⟨p,hat,_⟩ := Outcome.bind_eq_ok.mp hup
      obtain ⟨rest,hv⟩ := front_eq_ok.mp hfront
      have hidx := (List.getElem?_eq_some_iff.mp (at_eq_ok.mp hat)).1
      rw [updateCache_of_hit hl hv hidx] at h
      cases h
      exact .hit hl hv hidx
    | none =>
      by_cases hfull : c.cvec.length = c.maxsz
      · have hup := h
        simp only [Cache.updateCache,hl,Cache.makeRoom,if_pos hfull] at hup
        obtain ⟨d,hd,_⟩ := Outcome.bind_eq_ok.mp hup
        obtain ⟨front,hfront,hd⟩ := Outcome.bind_eq_ok.mp hd
        obtain ⟨old,hold,_⟩ := Outcome.bind_eq_ok.mp hd
        obtain ⟨rest,hv⟩ := front_eq_ok.mp hfront
        have hlive := deref_eq_ok.mp hold
        rw [updateCache_of_full hl hfull hv hlive] at h
        cases h
        exact .full hl hfull hv hlive
      · rw [updateCache_of_room hl hfull] at h
        cases h
        exact .room hl hfull
  · intro h
    cases h with
    | hit hl hv hidx => exact updateCache_of_hit hl hv hidx
    | room hl hne => exact updateCache_of_room hl hne
    | full hl hfull hv hold => exact updateCache_of_full hl hfull hv hold

theorem Accessed.frame (hx : c.Accessed pos buf c') : c.SameShape c' ∧ c'.file = c.file := by
  cases hx with
  | hit _ _ _ => exact ⟨⟨rfl,rfl,rfl⟩,rfl⟩
  | room _ _ => exact ⟨⟨rfl,rfl,rfl⟩,rfl⟩
  | full _ _ _ _ => exact ⟨⟨rfl,rfl,rfl⟩,rfl⟩

/-! ## The keys after an access -/

/-- Every pointer of the deque leads to a live object with a position that is mapped. -/
def Owned (c : Cache) : Prop := ∀ a ∈ c.cvec, ∃ acc, c.heap[a]? = some (some acc) ∧ acc.pos ∈ c.cmap

theorem mem_insertNew {m : PosMap} {k q : ℤ} {v : ℕ} (hk : m.lookup k = none) :
    q ∈ m.insertNew k v ↔ q = k ∨ q ∈ m := by
  rw [← AList.lookup_isSome,PosMap.lookup_insertNew hk,← AList.lookup_isSome]
  split_ifs with h <;> simp [h]

theorem lookup_erase_of_none {m : PosMap} {k : ℤ} (h : m.lookup k = none) (old : ℤ) :
    (m.erase old).lookup k = none := by
  rw [AList.lookup_eq_none,AList.mem_erase]
  exact fun hmem => AList.lookup_eq_none.mp h hmem.2

/-- No access brings in another key than its position. -/
theorem Accessed.mem_or (hx : c.Accessed pos buf c') {q : ℤ} (hq : q ∈ c'.cmap) : q = pos ∨ q ∈ c.cmap := by
  have hnew : ∀ {m : PosMap} {v : ℕ}, q ∈ m.insertNew pos v → q = pos ∨ q ∈ m := by
    intro m v h
    unfold PosMap.insertNew at h
    split at h
    · exact Or.inr h
    · exact (AList.mem_insert m).mp h
  cases hx with
  | hit _ _ _ => exact (hnew hq).imp_right fun h => (AList.mem_erase.mp h).2
  | room _ _ => exact hnew hq
  | full _ _ _ _ => exact (hnew hq).imp_right fun h => (AList.mem_erase.mp h).2

/-- Without an eviction the keys grow by the position, and all objects stay alive. -/
theorem Accessed.grow (hx : c.Accessed pos buf c') (hc : c.Owned)
    (hroom : pos ∈ c.cmap ∨ c.cvec.length ≠ c.maxsz) :
    c'.Owned ∧ ∀ q, q ∈ c'.cmap ↔ q = pos ∨ q ∈ c.cmap := by
  cases hx with
  | @hit idx front rest hl hv hidx =>
    have hmem : pos ∈ c.cmap := AList.lookup_isSome.mp (by rw [hl]; rfl)
    have hkeys : ∀ q, q ∈ (c.onHit pos idx front).cmap ↔ q = pos ∨ q ∈ c.cmap := by
      intro q
      simp only [onHit,mem_insertNew (AList.lookup_erase pos c.cmap),AList.mem_erase]
      tauto
    refine ⟨fun a ha => ?_,hkeys⟩
    have hmem' : a ∈ c.cvec := by
      rcases List.mem_append.mp ha with ha | ha
      · exact List.mem_of_mem_eraseIdx ha
      · rw [List.mem_singleton.mp ha,hv]
        exact List.mem_cons_self
    obtain ⟨acc,hacc,hpos⟩ := hc a hmem'
    exact ⟨acc,hacc,(hkeys _).mpr (Or.inr hpos)⟩
  | room hl hne =>
    have hkeys : ∀ q, q ∈ (c.onRoom pos buf).cmap ↔ q = pos ∨ q ∈ c.cmap := fun q => mem_insertNew hl
    refine ⟨fun a ha => ?_,hkeys⟩
    rcases List.mem_append.mp ha with ha | ha
    · obtain ⟨acc,hacc,hpos⟩ := hc a ha
      refine ⟨acc,?_,(hkeys _).mpr (Or.inr hpos)⟩
      simp only [onRoom,allocate]
      rw [List.getElem?_append_left (List.getElem?_eq_some_iff.mp hacc).1,hacc]
    · rw [List.mem_singleton.mp ha]
      exact ⟨⟨pos,buf⟩,List.getElem?_concat_length,(hkeys _).mpr (Or.inl rfl)⟩
  | full hl hfull hv hold =>
    rcases hroom with hmem | hne
    · exact absurd hmem (AList.lookup_eq_none.mp hl)
    · exact absurd hfull hne

/-- An eviction takes another position out of the map. -/
theorem Accessed.drop (hx : c.Accessed pos buf c') (hc : c.Owned) (hmiss : pos ∉ c.cmap)
    (hfull : c.cvec.length = c.maxsz) : ∃ q ∈ c.cmap, q ≠ pos ∧ q ∉ c'.cmap := by
  cases hx with
  | hit hl hv hidx => exact absurd (AList.lookup_isSome.mp (by rw [hl]; rfl)) hmiss
  | room hl hne => exact absurd hfull hne
  | @full front rest old hl hfull hv hold =>
    obtain ⟨acc,hacc,hpos⟩ := hc front (by rw [hv]; exact List.mem_cons_self)
    rw [allocate,List.getElem?_append_left (List.getElem?_eq_some_iff.mp hacc).1,hacc] at hold
    cases hold
    have hne : old.pos ≠ pos := fun heq => hmiss (heq ▸ hpos)
    refine ⟨old.pos,hpos,hne,?_⟩
    simp only [onFull,mem_insertNew (lookup_erase_of_none hl old.pos),AList.mem_erase]
    exact fun h => h.elim hne fun h => h.1 rfl

/-! ## Reads and writes -/

/-- A read is an access to the same file with another offset; a miss brings a whole piece. -/
theorem get_eq_ok {pcno : ℤ} {out : List Cell} (h : c.get pcno = .ok (out,c')) :
    ∃ file buf, file.data = c.file.data ∧
      (c.cmap.lookup (c.getPos pcno) = none → buf.length = c.pcsz) ∧
      Accessed { c with file } (c.getPos pcno) buf c' := by
  unfold Cache.get at h
  cases hl : c.cmap.lookup (c.getPos pcno) with
  | some idx =>
    simp only [hl] at h
    obtain ⟨a,_,h⟩ := Outcome.bind_eq_ok.mp h
    obtain ⟨acc,_,h⟩ := Outcome.bind_eq_ok.mp h
    obtain ⟨d,hup,h⟩ := Outcome.bind_eq_ok.mp h
    cases h
    exact ⟨c.file,_,rfl,nofun,updateCache_eq_ok.mp hup⟩
  | none =>
    simp only [hl] at h
    obtain ⟨d,hup,h⟩ := Outcome.bind_eq_ok.mp h
    cases h
    refine ⟨_,_,?_,fun _ => window_length _ _,updateCache_eq_ok.mp hup⟩
    simp only [File.read,File.lseek]
    split <;> rfl

/-- The file after a write of a piece at `n`. -/
def written (c : Cache) (n : ℕ) (piece : List Cell) : File :=
  File.write ⟨c.file.data,n⟩ (window c.pcsz piece)

/-- A write at a position that is not negative. -/
theorem put_natCast {pcno : ℤ} {n : ℕ} (hpos : c.getPos pcno = n) (piece : List Cell) :
    c.put pcno piece = { c with file := c.written n piece }.updateCache n (snprintf c.pcsz piece) := by
  simp only [Cache.put,hpos,File.lseek_natCast,written]

theorem get_length {pcno : ℤ} {out : List Cell} (h : c.get pcno = .ok (out,c')) : out.length = c.pcsz := by
  unfold Cache.get at h
  cases hl : c.cmap.lookup (c.getPos pcno) with
  | some idx =>
    simp only [hl] at h
    obtain ⟨a,_,h⟩ := Outcome.bind_eq_ok.mp h
    obtain ⟨acc,_,h⟩ := Outcome.bind_eq_ok.mp h
    obtain ⟨d,_,h⟩ := Outcome.bind_eq_ok.mp h
    cases h
    exact strncpy_length _ _
  | none =>
    simp only [hl] at h
    obtain ⟨d,_,h⟩ := Outcome.bind_eq_ok.mp h
    cases h
    exact strncpy_length _ _

theorem get_frame {pcno : ℤ} {out : List Cell} (h : c.get pcno = .ok (out,c')) :
    c.SameShape c' ∧ c'.file.data = c.file.data := by
  obtain ⟨file,buf,hdata,_,hx⟩ := get_eq_ok h
  obtain ⟨hshape,hfile⟩ := hx.frame
  exact ⟨hshape,by rw [hfile,hdata]⟩

theorem written_data {n : ℕ} {piece : List Cell} :
    (c.written n piece).data = File.overwrite c.file.data n (window c.pcsz piece) := (rfl)

theorem window_ne_nil {n : ℕ} (hn : 0 < n) (buf : List Cell) : window n buf ≠ [] := by
  intro hnil
  have hlen := congrArg List.length hnil
  rw [window_length,List.length_nil] at hlen
  omega

/-- A write is an access to the written file. -/
theorem put_eq_ok {pcno : ℤ} {piece : List Cell} (h : c.put pcno piece = .ok c') :
    ∃ file : File, file.data = c.file.data ∧
      Accessed { c with file := file.write (window c.pcsz piece) } (c.getPos pcno) (snprintf c.pcsz piece) c' := by
  unfold Cache.put at h
  cases hl : c.file.lseek (c.getPos pcno) with
  | none =>
    simp only [hl] at h
    cases h
  | some file =>
    simp only [hl] at h
    refine ⟨file,?_,updateCache_eq_ok.mp h⟩
    unfold File.lseek at hl
    split at hl
    · cases hl
      rfl
    · cases hl

theorem put_frame {pcno : ℤ} {piece : List Cell} (hsize : 0 < c.pcsz) (h : c.put pcno piece = .ok c') :
    c.SameShape c' ∧ c.file.data.length ≤ c'.file.data.length := by
  obtain ⟨file,hdata,hx⟩ := put_eq_ok h
  obtain ⟨hshape,hfile⟩ := hx.frame
  refine ⟨hshape,?_⟩
  rw [hfile]
  simp only [File.write,hdata,File.overwrite_length (window_ne_nil hsize piece)]
  exact Nat.le_max_left _ _

/-! ## Accesses that return -/

/-- The pointers of the deque come from `new`. -/
def Addressed (c : Cache) : Prop := ∀ a ∈ c.cvec, a < c.heap.length

def Live (c : Cache) (a : ℕ) : Prop := ∃ acc, c.heap[a]? = some (some acc)

/-- If the cache is full, its front leads to an object that is there. -/
def CanEvict (c : Cache) : Prop := c.cvec.length = c.maxsz → ∃ a rest, c.cvec = a :: rest ∧ c.Live a

/-- A recorded index leads to an object that is there, or there is no index and a front to
evict. -/
def CanGet (c : Cache) (pos : ℤ) : Prop :=
  match c.cmap.lookup pos with
  | some idx => ∃ a, c.cvec[idx]? = some a ∧ c.Live a
  | none => c.CanEvict

/-- A recorded index is inside the deque, or there is no index and a front to evict. -/
def CanPut (c : Cache) (pos : ℤ) : Prop :=
  match c.cmap.lookup pos with
  | some idx => idx < c.cvec.length
  | none => c.CanEvict

theorem Addressed.allocate (h : c.Addressed) {a : ℕ} (ha : a ∈ c.cvec) :
    (c.allocate pos buf)[a]? = c.heap[a]? := List.getElem?_append_left (h a ha)

theorem Live.allocate {a : ℕ} (h : c.Live a) : ∃ acc, (c.allocate pos buf)[a]? = some (some acc) := by
  obtain ⟨acc,hacc⟩ := h
  exact ⟨acc,(List.getElem?_append_left (List.getElem?_eq_some_iff.mp hacc).1).trans hacc⟩

theorem updateCache_returns (hcan : c.CanPut pos) : ∃ c', c.updateCache pos buf = .ok c' := by
  unfold CanPut at hcan
  cases hl : c.cmap.lookup pos with
  | some idx =>
    rw [hl] at hcan
    obtain ⟨front,rest,hv⟩ := List.exists_cons_of_length_pos (Nat.zero_lt_of_lt hcan)
    exact ⟨_,updateCache_of_hit hl hv hcan⟩
  | none =>
    rw [hl] at hcan
    by_cases hfull : c.cvec.length = c.maxsz
    · obtain ⟨front,rest,hv,hlive⟩ := hcan hfull
      obtain ⟨old,hold⟩ := hlive.allocate
      exact ⟨_,updateCache_of_full hl hfull hv hold⟩
    · exact ⟨_,updateCache_of_room hl hfull⟩

theorem updateCache_returns_iff (h : c.Addressed) :
    (∃ c', c.updateCache pos buf = .ok c') ↔ c.CanPut pos := by
  refine ⟨?_,updateCache_returns⟩
  rintro ⟨c',hup⟩
  unfold CanPut
  cases updateCache_eq_ok.mp hup with
  | hit hl _ hidx =>
    rw [hl]
    exact hidx
  | room hl hne =>
    rw [hl]
    exact fun hfull => absurd hfull hne
  | @full front rest old hl _ hv hold =>
    rw [hl]
    rw [h.allocate (show front ∈ c.cvec by rw [hv]; exact List.mem_cons_self)] at hold
    exact fun _ => ⟨front,rest,hv,old,hold⟩

theorem get_returns {pcno : ℤ} (hcan : c.CanGet (c.getPos pcno)) : ∃ out c', c.get pcno = .ok (out,c') := by
  unfold CanGet at hcan
  unfold Cache.get
  cases hl : c.cmap.lookup (c.getPos pcno) with
  | some idx =>
    rw [hl] at hcan
    obtain ⟨a,ha,acc,hacc⟩ := hcan
    have hput : c.CanPut (c.getPos pcno) := by
      rw [CanPut,hl]
      exact (List.getElem?_eq_some_iff.mp ha).1
    obtain ⟨c',hup⟩ : ∃ c', c.updateCache (c.getPos pcno) acc.buf = .ok c' := updateCache_returns hput
    simp only [hl]
    rw [at_eq_ok.mpr ha,Outcome.ok_bind,deref_eq_ok.mpr hacc,Outcome.ok_bind,hup]
    exact ⟨_,c',rfl⟩
  | none =>
    have hput : ∀ file, Cache.CanPut { c with file } (c.getPos pcno) := by
      intro file
      unfold CanPut
      rw [hl] at hcan ⊢
      exact hcan
    obtain ⟨c',hup⟩ := updateCache_returns (hput _)
    simp only [hl]
    rw [hup]
    exact ⟨_,c',rfl⟩

theorem get_returns_iff (h : c.Addressed) {pcno : ℤ} :
    (∃ out c', c.get pcno = .ok (out,c')) ↔ c.CanGet (c.getPos pcno) := by
  refine ⟨?_,get_returns⟩
  rintro ⟨out,c',hget⟩
  unfold CanGet
  unfold Cache.get at hget
  cases hl : c.cmap.lookup (c.getPos pcno) with
  | some idx =>
    simp only [hl] at hget
    obtain ⟨a,ha,hget⟩ := Outcome.bind_eq_ok.mp hget
    obtain ⟨acc,hacc,_⟩ := Outcome.bind_eq_ok.mp hget
    exact ⟨a,at_eq_ok.mp ha,acc,deref_eq_ok.mp hacc⟩
  | none =>
    simp only [hl] at hget
    obtain ⟨d,hup,_⟩ := Outcome.bind_eq_ok.mp hget
    have hput : ∀ file buf d, Cache.updateCache { c with file } (c.getPos pcno) buf = .ok d →
        Cache.CanPut { c with file } (c.getPos pcno) := fun file buf d hup =>
      (updateCache_returns_iff (c := { c with file }) h).mp ⟨d,hup⟩
    have hcan := hput _ _ d hup
    rw [CanPut,hl] at hcan
    exact hcan

theorem put_returns {pcno : ℤ} (hpos : 0 ≤ c.getPos pcno) (hcan : c.CanPut (c.getPos pcno))
    (piece : List Cell) : ∃ c', c.put pcno piece = .ok c' := by
  obtain ⟨n,hn⟩ := Int.eq_ofNat_of_zero_le hpos
  have hfile : CanPut { c with file := c.written n piece } n := hn ▸ hcan
  rw [put_natCast hn]
  exact updateCache_returns hfile

theorem put_returns_iff (h : c.Addressed) {pcno : ℤ} (piece : List Cell) :
    (∃ c', c.put pcno piece = .ok c') ↔ 0 ≤ c.getPos pcno ∧ c.CanPut (c.getPos pcno) := by
  refine ⟨?_,fun hcan => put_returns hcan.1 hcan.2 piece⟩
  rintro ⟨c',hput⟩
  by_cases hpos : 0 ≤ c.getPos pcno
  · obtain ⟨n,hn⟩ := Int.eq_ofNat_of_zero_le hpos
    have hfile : Addressed { c with file := c.written n piece } := h
    rw [put_natCast hn] at hput
    have hcan := (updateCache_returns_iff hfile).mp ⟨c',hput⟩
    rw [hn]
    exact ⟨by omega,hcan⟩
  · simp only [Cache.put,File.lseek,if_neg hpos] at hput
    cases hput

theorem Accessed.addressed (hx : c.Accessed pos buf c') (h : c.Addressed) : c'.Addressed := by
  intro a ha
  cases hx with
  | @hit idx front rest hl hv hidx =>
    rcases List.mem_append.mp ha with ha | ha
    · exact h a (List.mem_of_mem_eraseIdx ha)
    · rw [List.mem_singleton.mp ha]
      exact h front (by rw [hv]; exact List.mem_cons_self)
  | room hl hne =>
    simp only [onRoom,allocate,List.length_append,List.length_singleton]
    rcases List.mem_append.mp ha with ha | ha
    · exact Nat.lt_succ_of_lt (h a ha)
    · rw [List.mem_singleton.mp ha]
      exact Nat.lt_succ_self _
  | full hl hfull hv hold =>
    simp only [onFull,allocate,List.length_set,List.length_append,List.length_singleton]
    rcases List.mem_append.mp ha with ha | ha
    · exact Nat.lt_succ_of_lt (h a (List.mem_of_mem_tail ha))
    · rw [List.mem_singleton.mp ha]
      exact Nat.lt_succ_self _

theorem Addressed.get (h : c.Addressed) {pcno : ℤ} {out : List Cell} (hget : c.get pcno = .ok (out,c')) :
    c'.Addressed := by
  obtain ⟨file,buf,_,_,hx⟩ := get_eq_ok hget
  exact hx.addressed h

theorem Addressed.put (h : c.Addressed) {pcno : ℤ} {piece : List Cell} (hput : c.put pcno piece = .ok c') :
    c'.Addressed := by
  obtain ⟨file,_,hx⟩ := put_eq_ok hput
  exact hx.addressed h

end Cache

end BTRx
